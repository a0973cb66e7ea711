import Aesd.Driver.CommandLog
import Aesd.Driver.Find
import Aesd.Lib.Machine

/-!
# Writes refine the command log

`Intact s log` relates a driver state to the log it stands for: the ring's
entries are the log's stored commands, each in a block of its own, and the
first `write_buffer_size` bytes of the write buffer are the pending ones.
Every outcome of `aesd_write` is one lemma on that relation; the state a
failed allocation leaves behind is `Dangling`.
-/

namespace Aesd.Driver

open Aesd.Lib

/-- The `buffptr`s of the ten slots, in slot order. -/
def slotPtrs (b : AesdCircularBuffer) : List Ptr :=
  b.entry.toList.map AesdBufferEntry.buffptr

/-- The ring `b` holds `commands`, each in its own block, and the only other
block is `held`. -/
structure RingHolds (heap : Heap) (b : AesdCircularBuffer) (held : Ptr)
    (es : List AesdBufferEntry) (commands : List (List UInt8)) : Prop where
  ring : Holds b es
  length : es.length = commands.length
  bytes : b.stored.map (fun e => heap.bytes e.buffptr) = commands.rtake 10
  sizes : b.sizes = (commands.rtake 10).map List.length
  owned : heap.OwnedBy (held :: slotPtrs b)

/-- The driver state stands for `log`. -/
structure Intact (s : DriverState) (log : CommandLog) : Prop where
  ring : ∃ es, RingHolds s.heap s.aesdDevice.circularBuffer
    s.aesdDevice.pWriteBuffer es log.commands
  size : s.aesdDevice.writeBufferSize = log.pending.length
  pending : (s.heap.bytes s.aesdDevice.pWriteBuffer).take log.pending.length
    = log.pending

/-- The ring stands for `log`'s commands, but the write buffer was freed. -/
structure Dangling (s : DriverState) (log : CommandLog) : Prop where
  ring : ∃ es, RingHolds s.heap s.aesdDevice.circularBuffer .null es log.commands
  size : s.aesdDevice.writeBufferSize = log.pending.length
  dead : ∃ id, s.aesdDevice.pWriteBuffer = .block id ∧ s.heap.live id = none

/-! ## Slots -/

section
variable {b : AesdCircularBuffer} {es : List AesdBufferEntry}

@[simp] theorem slotPtrs_length (b : AesdCircularBuffer) : (slotPtrs b).length = 10 := by
  simp [slotPtrs]

theorem slotPtrs_getElem? {i : Nat} (b : AesdCircularBuffer) (h : i < 10) :
    (slotPtrs b)[i]? = some (b.at i).buffptr := by
  simp [slotPtrs, AesdCircularBuffer.at, h]

theorem slotPtrs_getElem {i : Nat} (b : AesdCircularBuffer)
    (h : i < (slotPtrs b).length) : (slotPtrs b)[i] = (b.at i).buffptr := by
  have h10 : i < 10 := by simpa using h
  have hs := slotPtrs_getElem? b h10
  rw [List.getElem?_eq_getElem h] at hs
  exact Option.some.inj hs

theorem slotPtrs_init : slotPtrs aesdCircularBufferInit = List.replicate 10 .null := by
  decide

theorem slotPtrs_addEntry (b : AesdCircularBuffer) (e : AesdBufferEntry) :
    slotPtrs (aesdCircularBufferAddEntry b e) = (slotPtrs b).set b.inOffs e.buffptr := by
  simp [slotPtrs, aesdCircularBufferAddEntry, List.map_set]

theorem buffptr_mem_slotPtrs {e : AesdBufferEntry} (he : e ∈ b.stored) :
    e.buffptr ∈ slotPtrs b := by
  obtain ⟨i, _, rfl⟩ := mem_window.mp he
  exact List.mem_of_getElem? (slotPtrs_getElem? b (Nat.mod_lt _ (by decide)))

/-- In a full ring, an entry other than the oldest is in a slot other than
`out_offs`. -/
theorem buffptr_mem_eraseIdx {e : AesdBufferEntry} (hcount : b.count = 10)
    (he : e ∈ b.stored.tail) :
    e.buffptr ∈ (slotPtrs b).eraseIdx b.outOffs := by
  have hstored : b.stored = window b.at 10 b.outOffs (9 + 1) := by
    rw [AesdCircularBuffer.stored, hcount]
  rw [hstored, window_cons, List.tail_cons] at he
  obtain ⟨i, hi, rfl⟩ := mem_window.mp he
  rw [List.mem_eraseIdx_iff_getElem?]
  refine ⟨(b.outOffs + 1 + i) % 10, by omega, ?_⟩
  exact slotPtrs_getElem? b (Nat.mod_lt _ (by omega))

end

/-! ## The ring on the heap -/

section
variable {heap heap' : Heap} {b : AesdCircularBuffer} {held held' : Ptr}
  {es : List AesdBufferEntry} {commands : List (List UInt8)}

/-- A change of the heap that keeps the ring's blocks keeps its commands. -/
theorem RingHolds.keeps (h : RingHolds heap b held es commands)
    (hk : heap.Keeps heap' (slotPtrs b)) (ho : heap'.OwnedBy (held' :: slotPtrs b)) :
    RingHolds heap' b held' es commands where
  ring := h.ring
  length := h.length
  bytes := by
    rw [← h.bytes]
    apply List.map_congr_left
    intro e he
    exact hk.bytes _ (buffptr_mem_slotPtrs he)
  sizes := h.sizes
  owned := ho

theorem RingHolds.full_iff (h : RingHolds heap b held es commands) :
    b.full = true ↔ 10 ≤ commands.length := by
  rw [h.ring.full, h.length]
  simp

theorem RingHolds.count (h : RingHolds heap b held es commands) :
    b.count = min commands.length 10 := by
  rw [h.ring.count, h.length]

theorem stored_concat {e : AesdBufferEntry} (h : Holds b es) :
    (aesdCircularBufferAddEntry b e).stored
      = (if es.length < 10 then b.stored else b.stored.tail) ++ [e] := by
  rw [(h.addEntry e).stored, h.stored]
  split
  · rw [rtake_of_length_le (l := es) (by omega), rtake_of_length_le (by simp; omega)]
  · exact rtake_concat_of_le (by omega) (by omega) e

theorem rtake_commands_concat (commands : List (List UInt8)) (c : List UInt8) :
    (commands ++ [c]).rtake 10
      = (if commands.length < 10 then commands.rtake 10 else (commands.rtake 10).tail)
        ++ [c] := by
  split
  · rw [rtake_of_length_le (l := commands) (by omega),
      rtake_of_length_le (by simp; omega)]
  · exact rtake_concat_of_le (by omega) (by omega) c

/-- The owners after a block moves from the write buffer into slot `i`, whose
own pointer is gone. -/
theorem owned_set {ps : List Ptr} {i : Nat} (hi : i < ps.length)
    (ho : heap.OwnedBy (held :: ps.eraseIdx i)) :
    heap.OwnedBy (.null :: ps.set i held) := by
  refine ho.of_blocks_perm ?_
  rw [blocks_cons_null]
  exact (List.set_perm_cons_eraseIdx hi held).symm.filterMap _

/-- The sizes of the slots are those of the commands, also after the commit. -/
theorem RingHolds.sizes_commit (h : RingHolds heap b held es commands) :
    (aesdCircularBufferAddEntry b ⟨held, (heap.bytes held).length⟩).sizes
      = ((commands ++ [heap.bytes held]).rtake 10).map List.length := by
  have hs := h.sizes
  rw [AesdCircularBuffer.sizes] at hs ⊢
  rw [stored_concat h.ring, rtake_commands_concat, h.length]
  split
  · rw [List.map_append, List.map_append, hs]
    rfl
  · rw [List.map_append, List.map_append, List.map_tail, hs, List.map_tail]
    rfl

/-- On a full ring slot `out_offs` is freed, and it is the slot `in_offs` that
is written next. -/
theorem RingHolds.commit_full (h : RingHolds heap b held es commands)
    (hfull : 10 ≤ commands.length) :
    ∃ heap', kfree heap (b.at b.outOffs).buffptr = some heap' ∧
      RingHolds heap'
        (aesdCircularBufferAddEntry b ⟨held, (heap.bytes held).length⟩) .null
        (es ++ [⟨held, (heap.bytes held).length⟩])
        (commands ++ [heap.bytes held]) ∧
      heap'.limit = heap.limit := by
  have hi : b.inOffs < (slotPtrs b).length := by simpa using h.ring.inOffs_lt
  have hset : slotPtrs (aesdCircularBufferAddEntry b ⟨held, (heap.bytes held).length⟩)
      = (slotPtrs b).set b.inOffs held := slotPtrs_addEntry b _
  have hcount : b.count = 10 := by
    rw [h.count]
    omega
  have hio : b.outOffs = b.inOffs := by
    have := h.ring.outOffs
    rw [h.length, if_neg (by omega)] at this
    rw [this, h.ring.inOffs, h.length]
  have hget : (slotPtrs b)[b.inOffs] = (b.at b.outOffs).buffptr := by
    rw [slotPtrs_getElem, hio]
  have howned : heap.OwnedBy
      ((b.at b.outOffs).buffptr :: held :: (slotPtrs b).eraseIdx b.inOffs) := by
    refine h.owned.perm ?_
    rw [← hget]
    exact ((List.getElem_cons_eraseIdx_perm hi).symm.cons held).trans
      (List.Perm.swap _ _ _)
  obtain ⟨heap', hkf, ho', hk⟩ := kfree_spec howned
  refine ⟨heap', hkf, ⟨h.ring.addEntry _, ?_, ?_, h.sizes_commit, ?_⟩, hk.limit⟩
  · simp [h.length]
  · rw [stored_concat h.ring, rtake_commands_concat, h.length,
      if_neg (by omega), if_neg (by omega), List.map_append, ← h.bytes,
      ← List.map_tail]
    congr 1
    · apply List.map_congr_left
      intro e he
      apply hk.bytes
      rw [← hio]
      exact List.mem_cons_of_mem _ (buffptr_mem_eraseIdx hcount he)
    · simp [hk.bytes held (by simp)]
  · rw [hset]
    exact owned_set hi ho'

/-- On a ring with room slot `in_offs` was never written. -/
theorem RingHolds.commit_space (h : RingHolds heap b held es commands)
    (hfull : ¬ 10 ≤ commands.length) :
    RingHolds heap (aesdCircularBufferAddEntry b ⟨held, (heap.bytes held).length⟩) .null
      (es ++ [⟨held, (heap.bytes held).length⟩]) (commands ++ [heap.bytes held]) := by
  have hi : b.inOffs < (slotPtrs b).length := by simpa using h.ring.inOffs_lt
  have hset : slotPtrs (aesdCircularBufferAddEntry b ⟨held, (heap.bytes held).length⟩)
      = (slotPtrs b).set b.inOffs held := slotPtrs_addEntry b _
  have hnull : (slotPtrs b)[b.inOffs] = .null := by
    rw [slotPtrs_getElem, h.ring.unused]
    rw [h.ring.inOffs, h.length]
    omega
  have howned : heap.OwnedBy (held :: (slotPtrs b).eraseIdx b.inOffs) := by
    have hp := h.owned.perm
      (((List.getElem_cons_eraseIdx_perm hi).symm.cons held).trans
        (List.Perm.swap _ _ _))
    rw [hnull] at hp
    exact ⟨hp.nodup, hp.live_iff⟩
  refine ⟨h.ring.addEntry _, ?_, ?_, h.sizes_commit, ?_⟩
  · simp [h.length]
  · rw [stored_concat h.ring, rtake_commands_concat, h.length,
      if_pos (by omega), if_pos (by omega), List.map_append, ← h.bytes]
    rfl
  · rw [hset]
    exact owned_set hi howned

/-- **Committing a command.** The oldest block of a full ring is freed, the
write buffer's block becomes the newest entry's. -/
theorem RingHolds.commit (h : RingHolds heap b held es commands) :
    ∃ heap', (if b.full then kfree heap (b.at b.outOffs).buffptr else some heap)
        = some heap' ∧
      RingHolds heap'
        (aesdCircularBufferAddEntry b ⟨held, (heap.bytes held).length⟩) .null
        (es ++ [⟨held, (heap.bytes held).length⟩])
        (commands ++ [heap.bytes held]) ∧
      heap'.limit = heap.limit := by
  by_cases hfull : 10 ≤ commands.length
  · rw [if_pos (h.full_iff.mpr hfull)]
    exact h.commit_full hfull
  · rw [if_neg (by rwa [h.full_iff])]
    exact ⟨heap, rfl, h.commit_space hfull, rfl⟩

end

/-! ## The outcomes of `aesd_write` -/

/-- How an `aesd_write` ends. -/
inductive WriteOutcome where
  | interrupted
  | noMemory
  | faulted
  | stored
  deriving DecidableEq, Repr

/-- The outcome, from the allocator's limit, the number of pending bytes and
the arguments of the call. -/
def writeOutcome (limit pending : Nat) (buf : UserBuf) (env : WriteEnv) :
    WriteOutcome :=
  if env.interrupted then .interrupted
  else if env.kalloc.Grants limit (buf.bytes.length + pending) then
    if env.fault.isSome && decide (buf.bytes ≠ []) then .faulted else .stored
  else .noMemory

/-- When a write ends in each way. -/
def WriteOutcome.When (limit pending : Nat) (buf : UserBuf) (env : WriteEnv) :
    WriteOutcome → Prop
  | .interrupted => env.interrupted = true
  | .noMemory => env.interrupted = false ∧
      ¬ env.kalloc.Grants limit (buf.bytes.length + pending)
  | .faulted => env.interrupted = false ∧
      env.kalloc.Grants limit (buf.bytes.length + pending) ∧
      (env.fault.isSome && decide (buf.bytes ≠ [])) = true
  | .stored => env.interrupted = false ∧
      env.kalloc.Grants limit (buf.bytes.length + pending) ∧
      (env.fault.isSome && decide (buf.bytes ≠ [])) = false

theorem writeOutcome_when {limit pending : Nat} {buf : UserBuf} {env : WriteEnv}
    {o : WriteOutcome} (ho : writeOutcome limit pending buf env = o) :
    o.When limit pending buf env := by
  subst ho
  simp only [writeOutcome]
  split
  · assumption
  rename_i hint
  have hint : env.interrupted = false := by simpa using hint
  split
  · rename_i hg
    split
    · rename_i hf
      exact ⟨hint, hg, hf⟩
    · rename_i hf
      exact ⟨hint, hg, by simpa using hf⟩
  · rename_i hg
    exact ⟨hint, hg⟩

/-- The return value. -/
def WriteOutcome.ret (buf : UserBuf) : WriteOutcome → Int
  | .interrupted => -eRestartSys
  | .noMemory => -eNoMem
  | .faulted => -eFault
  | .stored => buf.bytes.length

/-- Whether a pointer is a block. -/
def isBlock : Ptr → Bool
  | .block _ => true
  | _ => false

theorem isBlock_iff {p : Ptr} : isBlock p = true ↔ ∃ id, p = .block id := by
  cases p <;> simp [isBlock]

section
variable {s : DriverState} {log : CommandLog} {buf : UserBuf} {env : WriteEnv}

theorem Intact.pending_le (h : Intact s log) :
    log.pending.length ≤ (s.heap.bytes s.aesdDevice.pWriteBuffer).length := by
  have := congrArg List.length h.pending
  rw [List.length_take] at this
  omega

theorem Intact.krealloc_size (h : Intact s log) :
    toU64 (buf.bytes.length + s.aesdDevice.writeBufferSize)
      = buf.bytes.length + log.pending.length := by
  have h1 := h.pending_le
  have h2 := s.heap.bytes_le s.aesdDevice.pWriteBuffer
  have h3 := s.heap.limit_le
  have h4 := buf.lt
  rw [h.size]
  exact_mod_cast toU64_natCast (n := buf.bytes.length + log.pending.length) (by omega)

theorem aesdWriteCommit_eq (dev : AesdDev) {heap heap' : Heap}
    (hfree : (if dev.circularBuffer.full then
        kfree heap (dev.circularBuffer.at dev.circularBuffer.outOffs).buffptr
      else some heap) = some heap') :
    aesdWriteCommit heap dev = some ⟨heap', .null, 0,
      aesdCircularBufferAddEntry dev.circularBuffer
        ⟨dev.pWriteBuffer, dev.writeBufferSize⟩⟩ := by
  simp only [aesdWriteCommit]
  split at hfree
  · rename_i hf
    simp [hf, hfree]
  · rename_i hf
    cases hfree
    simp [hf]

theorem aesdWrite_interrupted (hi : env.interrupted = true) :
    aesdWrite s buf env = some (-eRestartSys, s) := by
  simp [aesdWrite, hi]

/-- **No memory, and nothing to free**: the state is the same. -/
theorem Intact.aesdWrite_noMemory (h : Intact s log)
    (ho : writeOutcome s.heap.limit log.pending.length buf env = .noMemory)
    (hb : isBlock s.aesdDevice.pWriteBuffer = false) :
    aesdWrite s buf env = some (-eNoMem, s) := by
  obtain ⟨es, hr⟩ := h.ring
  obtain ⟨hint, hg⟩ := writeOutcome_when ho
  simp only [aesdWrite, hint, h.krealloc_size, krealloc_null hr.owned hg,
    Option.bind_eq_bind, Option.bind_some, if_true]
  cases hp : s.aesdDevice.pWriteBuffer <;> simp_all [kfree, isBlock]

/-- **No memory with a block in the write buffer**: the block is freed, and
`p_write_buffer` still points to it. -/
theorem Intact.aesdWrite_noMemory_block (h : Intact s log)
    (ho : writeOutcome s.heap.limit log.pending.length buf env = .noMemory)
    (hb : isBlock s.aesdDevice.pWriteBuffer = true) :
    ∃ s', aesdWrite s buf env = some (-eNoMem, s') ∧ Dangling s' log ∧
      s'.heap.limit = s.heap.limit := by
  obtain ⟨es, hr⟩ := h.ring
  obtain ⟨id, hid⟩ := isBlock_iff.mp hb
  obtain ⟨hint, hg⟩ := writeOutcome_when ho
  obtain ⟨heap', hk, howned, hkeep⟩ := kfree_spec hr.owned
  refine ⟨⟨heap', s.aesdDevice⟩, ?_, ⟨⟨es, hr.keeps hkeep ?_⟩, h.size, id, hid, ?_⟩,
    hkeep.limit⟩
  · simp only [aesdWrite, hint, h.krealloc_size, krealloc_null hr.owned hg,
      Option.bind_eq_bind, Option.bind_some, if_true, hk]
    rfl
  · exact ⟨howned.nodup, howned.live_iff⟩
  · rw [hid] at hk
    exact kfree_dead hk

/-- The write buffer after `krealloc` and the copy, before `write_buffer_size`
is updated. -/
structure Grown (s : DriverState) (log : CommandLog) (buf : UserBuf)
    (heap : Heap) (p : Ptr) (faulted : Bool) : Prop where
  ring : ∃ es, RingHolds heap s.aesdDevice.circularBuffer p es log.commands
  limit : heap.limit = s.heap.limit
  ne_null : p ≠ .null
  isBlock_iff : isBlock p = true ↔ buf.bytes.length + log.pending.length ≠ 0
  pending : (heap.bytes p).take log.pending.length = log.pending
  bytes : faulted = false → heap.bytes p = log.pending ++ buf.bytes

theorem Intact.grow (h : Intact s log)
    (hg : env.kalloc.Grants s.heap.limit (buf.bytes.length + log.pending.length)) :
    ∃ heap₁ heap p, krealloc s.heap s.aesdDevice.pWriteBuffer
        (buf.bytes.length + log.pending.length) env.kalloc = some (heap₁, p) ∧
      copyFromUser heap₁ p s.aesdDevice.writeBufferSize buf.bytes env.fault
        = some (heap, env.fault.isSome && decide (buf.bytes ≠ [])) ∧
      Grown s log buf heap p (env.fault.isSome && decide (buf.bytes ≠ [])) := by
  obtain ⟨es, hr⟩ := h.ring
  obtain ⟨heap₁, p, hk, hres⟩ := krealloc_spec hr.owned hg
  have hlen := hres.length
  have hroom : s.aesdDevice.writeBufferSize + buf.bytes.length
      ≤ (heap₁.bytes p).length := by
    rw [hlen, h.size]
    omega
  obtain ⟨heap, hc, ho, hkeep, hlen', htake, hbytes⟩ :=
    copyFromUser_spec hres.owned hroom env.fault
  rw [h.size] at htake hbytes
  have hpend : (heap₁.bytes p).take log.pending.length = log.pending := by
    rw [hres.take _ (by omega) h.pending_le, h.pending]
  refine ⟨heap₁, heap, p, hk, hc, ⟨es, hr.keeps (hres.keeps.trans hkeep) ho⟩, ?_,
    hres.ne_null, ?_, ?_, ?_⟩
  · rw [hkeep.limit, hres.keeps.limit]
  · rw [Driver.isBlock_iff, hres.isBlock]
  · rw [htake, hpend]
  · intro hf
    rw [hbytes hf, overwrite_end (by rw [hlen]; omega), hpend]

/-- **The copy faults**: the pending bytes, the size and the ring stay. -/
theorem Intact.aesdWrite_faulted (h : Intact s log)
    (ho : writeOutcome s.heap.limit log.pending.length buf env = .faulted) :
    ∃ s', aesdWrite s buf env = some (-eFault, s') ∧ Intact s' log ∧
      s'.heap.limit = s.heap.limit ∧ isBlock s'.aesdDevice.pWriteBuffer = true ∧
      s'.aesdDevice.circularBuffer = s.aesdDevice.circularBuffer := by
  obtain ⟨hint, hg, hf⟩ := writeOutcome_when ho
  obtain ⟨heap₁, heap, p, hk, hc, hgr⟩ := h.grow hg
  refine ⟨⟨heap, { s.aesdDevice with pWriteBuffer := p }⟩, ?_,
    ⟨hgr.ring, h.size, hgr.pending⟩, hgr.limit, ?_, rfl⟩
  · simp only [aesdWrite, hint, if_false, h.krealloc_size, hk, hc,
      Option.bind_eq_bind, Option.bind_some, hgr.ne_null, hf, if_true]
    rfl
  · rw [hgr.isBlock_iff]
    have : buf.bytes ≠ [] := by
      simp only [Bool.and_eq_true, decide_eq_true_eq] at hf
      exact hf.2
    have := List.length_pos_of_ne_nil this
    omega

/-- **The chunk is stored**: the log gains it. -/
theorem Intact.aesdWrite_stored (h : Intact s log)
    (ho : writeOutcome s.heap.limit log.pending.length buf env = .stored) :
    ∃ s', aesdWrite s buf env = some ((buf.bytes.length : Int), s') ∧
      Intact s' (log.write buf.bytes) ∧ s'.heap.limit = s.heap.limit ∧
      (isBlock s'.aesdDevice.pWriteBuffer = true ↔
        newline ∉ buf.bytes ∧ buf.bytes.length + log.pending.length ≠ 0) := by
  obtain ⟨hint, hg, hf⟩ := writeOutcome_when ho
  obtain ⟨heap₁, heap, p, hk, hc, hgr⟩ := h.grow hg
  obtain ⟨es, hr⟩ := hgr.ring
  have hbytes := hgr.bytes hf
  have hlen : (heap.bytes p).length = log.pending.length + buf.bytes.length := by
    rw [hbytes, List.length_append]
  have hsize : toU64 (s.aesdDevice.writeBufferSize + buf.bytes.length)
      = (heap.bytes p).length := by
    rw [hlen, Int.add_comm, h.krealloc_size, Nat.add_comm]
  have hret : toI64 (buf.bytes.length : Int) = buf.bytes.length :=
    toI64_natCast (by have := buf.lt; omega)
  have hmem : memchr heap p newline (heap.bytes p).length
      = some (decide (newline ∈ buf.bytes)) := by
    rw [memchr_spec hr.owned (by simp) (Nat.le_refl _), List.take_length, hbytes]
    simp [log.newline_notMem]
  by_cases hn : newline ∈ buf.bytes
  · obtain ⟨heap', hfree, hr', hlim⟩ := hr.commit
    obtain ⟨hc1, hc2⟩ := log.write_commit hn
    refine ⟨⟨heap', .null, 0, aesdCircularBufferAddEntry
        s.aesdDevice.circularBuffer ⟨p, (heap.bytes p).length⟩⟩, ?_,
      ⟨⟨es ++ [⟨p, (heap.bytes p).length⟩], ?_⟩, ?_, ?_⟩, hlim.trans hgr.limit,
      by simp [isBlock, hn]⟩
    · have hcommit := aesdWriteCommit_eq ⟨p, (heap.bytes p).length,
        s.aesdDevice.circularBuffer⟩ hfree
      simp only [aesdWrite, hint, if_false, h.krealloc_size, hk, hc,
        Option.bind_eq_bind, Option.bind_some, hgr.ne_null, hf,
        Bool.false_eq_true, hsize, hmem, hn, decide_true, if_true,
        hcommit, hret]
      rfl
    · rw [hc1, ← hbytes]
      exact hr'
    · rw [hc2]
      rfl
    · rw [hc2]
      rfl
  · obtain ⟨hc1, hc2⟩ := log.write_append hn
    refine ⟨⟨heap, p, (heap.bytes p).length, s.aesdDevice.circularBuffer⟩, ?_,
      ⟨⟨es, ?_⟩, ?_, ?_⟩, hgr.limit, ?_⟩
    · simp only [aesdWrite, hint, if_false, h.krealloc_size, hk, hc,
        Option.bind_eq_bind, Option.bind_some, hgr.ne_null, hf,
        Bool.false_eq_true, hsize, hmem, hn, decide_false, hret]
      rfl
    · rw [hc1]
      exact hr
    · rw [hc2, hlen, List.length_append]
    · rw [hc2, hbytes, List.take_length]
    · rw [hgr.isBlock_iff]
      simp [hn]

/-- After the write buffer was freed, only a call interrupted at the lock is
defined. -/
theorem Dangling.aesdWrite (h : Dangling s log) :
    aesdWrite s buf env
      = if env.interrupted then some (-eRestartSys, s) else none := by
  obtain ⟨id, hid, hdead⟩ := h.dead
  cases hint : env.interrupted with
  | true => simp [Driver.aesdWrite, hint]
  | false => simp [Driver.aesdWrite, hint, hid, krealloc_dead hdead]

theorem intact_init (limit : Nat) (h : limit ≤ 2 ^ 56) :
    Intact (aesdInitModule limit h) .empty where
  ring := by
    refine ⟨[], holds_init, rfl, rfl, rfl, ?_⟩
    refine Heap.ownedBy_empty limit h ?_
    change blocks (.null :: slotPtrs aesdCircularBufferInit) = []
    rw [slotPtrs_init]
    rfl
  size := rfl
  pending := rfl

end

end Aesd.Driver
