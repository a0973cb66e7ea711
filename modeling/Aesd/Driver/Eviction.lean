import Aesd.Driver.WriteRuns
import Mathlib.Data.Multiset.AddSub
import Mathlib.Data.Multiset.Filter

/-!
# Eviction

`aesd_write` frees `entry[out_offs]` of a full ring, and
`aesd_circular_buffer_add_entry` then writes `entry[in_offs]`. Neither
function checks that these are one slot, nor that slot `in_offs` of a ring
with room holds nothing; both hold in every state a run of calls reaches
(`commit_frees_overwritten`), so each pointer leaves the ring exactly when its
block is freed.
-/

namespace Aesd.Driver

open Aesd.Lib

/-- The call gets to its commit: it has the lock, `krealloc` gave a block, the
copy is complete and `memchr` found a newline. `heap` and `dev` are the heap
and the device at that point. -/
structure ReachesCommit (s : DriverState) (buf : UserBuf) (env : WriteEnv)
    (heap : Heap) (dev : AesdDev) : Prop where
  lock : env.interrupted = false
  copied : ∃ heap₁, krealloc s.heap s.aesdDevice.pWriteBuffer
      (toU64 (buf.bytes.length + s.aesdDevice.writeBufferSize)) env.kalloc
        = some (heap₁, dev.pWriteBuffer) ∧
    copyFromUser heap₁ dev.pWriteBuffer s.aesdDevice.writeBufferSize buf.bytes
      env.fault = some (heap, false)
  granted : dev.pWriteBuffer ≠ .null
  size : dev.writeBufferSize = toU64 (s.aesdDevice.writeBufferSize + buf.bytes.length)
  ring : dev.circularBuffer = s.aesdDevice.circularBuffer
  found : memchr heap dev.pWriteBuffer newline dev.writeBufferSize = some true

/-- What the commit passes to `kfree`, if it calls it. -/
def AesdDev.kfreed (dev : AesdDev) : Option Ptr :=
  if dev.circularBuffer.full then
    some (dev.circularBuffer.at dev.circularBuffer.outOffs).buffptr
  else none

/-- The pointers in the ring: those of the ten slots that are not `NULL`. -/
def ringPtrs (b : AesdCircularBuffer) : Multiset Ptr :=
  (slotPtrs b : Multiset Ptr).filter (· ≠ .null)

/-- The commit of `entry` takes the ring from `b` to `b'` and the heap from
`heap` to `heap'`, with `freed` the pointer passed to `kfree`. -/
structure Evicts (heap : Heap) (b : AesdCircularBuffer) (entry : AesdBufferEntry)
    (freed : Option Ptr) (heap' : Heap) (b' : AesdCircularBuffer) : Prop where
  slot : b.inOffs < maxWriteOperationsSupported
  full : b.full = true → freed = some (b.at b.inOffs).buffptr ∧
    b.stored.head? = some (b.at b.inOffs) ∧
    ∃ id, (b.at b.inOffs).buffptr = .block id ∧ heap'.freed = heap.freed ++ [id]
  space : b.full = false → freed = none ∧ heap'.freed = heap.freed ∧
    b.at b.inOffs = ⟨.null, 0⟩
  written : b'.at b.inOffs = entry
  others : ∀ i < maxWriteOperationsSupported, i ≠ b.inOffs → b'.at i = b.at i
  ptrs : freed.elim 0 singleton ≤ ringPtrs b ∧
    ringPtrs b' = ringPtrs b - freed.elim 0 singleton + {entry.buffptr}

/-! ## Writes that commit -/

section
variable {s s' : DriverState} {buf : UserBuf} {env : WriteEnv} {heap : Heap}
  {dev : AesdDev}

theorem aesdWriteCommit_kfreed (heap : Heap) (dev : AesdDev) :
    aesdWriteCommit heap dev = (dev.kfreed.elim (some heap) (kfree heap)).map
      fun heap' => ⟨heap', .null, 0, aesdCircularBufferAddEntry dev.circularBuffer
        ⟨dev.pWriteBuffer, dev.writeBufferSize⟩⟩ := by
  by_cases hf : dev.circularBuffer.full = true
  · simp only [aesdWriteCommit, AesdDev.kfreed, hf, if_true, Option.elim_some]
    cases kfree heap (dev.circularBuffer.at dev.circularBuffer.outOffs).buffptr <;> rfl
  · simp only [aesdWriteCommit, AesdDev.kfreed, hf, Bool.false_eq_true, if_false,
      Option.elim_none]
    rfl

theorem ReachesCommit.aesdWrite (h : ReachesCommit s buf env heap dev) :
    aesdWrite s buf env
      = (aesdWriteCommit heap dev).map fun s' => (toI64 buf.bytes.length, s') := by
  obtain ⟨heap₁, hk, hc⟩ := h.copied
  obtain ⟨p, n, b⟩ := dev
  obtain rfl : b = s.aesdDevice.circularBuffer := h.ring
  obtain rfl : n = toU64 (s.aesdDevice.writeBufferSize + buf.bytes.length) := h.size
  have hne : p ≠ .null := h.granted
  simp only [Driver.aesdWrite, h.lock, if_false, hk, hc, hne, h.found,
    Option.bind_eq_bind, Option.bind_some, Bool.false_eq_true, if_true]
  cases aesdWriteCommit heap _ <;> rfl

theorem aesdWrite_ring {ret : Int} (h : aesdWrite s buf env = some (ret, s')) :
    s'.aesdDevice.circularBuffer = s.aesdDevice.circularBuffer ∨
      ∃ heap dev, ReachesCommit s buf env heap dev := by
  cases hint : env.interrupted with
  | true =>
      rw [aesdWrite_interrupted hint] at h
      cases h
      exact .inl rfl
  | false =>
      simp only [Driver.aesdWrite, hint, Bool.false_eq_true, if_false,
        Option.bind_eq_bind, Option.bind_eq_some_iff, Prod.exists] at h
      obtain ⟨heap₁, p, hk, h⟩ := h
      split at h
      · obtain ⟨heap, -, h⟩ := Option.bind_eq_some_iff.mp h
        cases h
        exact .inl rfl
      · rename_i hp
        obtain ⟨⟨heap, uncopied⟩, hc, h⟩ := Option.bind_eq_some_iff.mp h
        cases uncopied with
        | true =>
            cases h
            exact .inl rfl
        | false =>
            simp only [Bool.false_eq_true, if_false] at h
            obtain ⟨found, hm, h⟩ := Option.bind_eq_some_iff.mp h
            cases found with
            | true =>
                exact .inr ⟨heap, ⟨p, _, _⟩, hint, ⟨heap₁, hk, hc⟩, hp, rfl, rfl, hm⟩
            | false =>
                simp only [Bool.false_eq_true, if_false, Option.pure_def,
                  Option.some.injEq, Prod.mk.injEq] at h
                exact .inl (by rw [← h.2])

end

/-! ## The slot that is written -/

section
variable {heap heap' : Heap} {b : AesdCircularBuffer} {held : Ptr}
  {es : List AesdBufferEntry} {log : CommandLog}

/-- In a full ring the slot that is freed is the slot that is written. -/
theorem Holds.inOffs_eq_outOffs (h : Holds b es) (hf : b.full = true) :
    b.inOffs = b.outOffs := by
  have hfull := h.full
  rw [hf, eq_comm, decide_eq_true_eq] at hfull
  rw [h.inOffs, h.outOffs, if_neg (by omega)]

/-- In a ring with room the slot that is written was never written before. -/
theorem Holds.at_inOffs (h : Holds b es) (hf : b.full = false) :
    b.at b.inOffs = ⟨.null, 0⟩ := by
  have hfull := h.full
  rw [hf, eq_comm, decide_eq_false_iff_not] at hfull
  apply h.unused
  rw [h.inOffs]
  omega

/-- The entry at `in_offs` of a full ring is the oldest, and it has a block. -/
theorem RingHolds.oldest (h : RingHolds heap b held es log.commands)
    (hf : b.full = true) :
    b.stored.head? = some (b.at b.inOffs) ∧
      log.stored.head? = some (heap.bytes (b.at b.inOffs).buffptr) ∧
      ∃ id, (b.at b.inOffs).buffptr = .block id := by
  have hten := h.full_iff.mp hf
  have hlen : 0 < log.stored.length := by
    rw [log.stored_length]
    omega
  obtain ⟨-, -, hbytes⟩ := h.entry hlen
  rw [Nat.add_zero, Nat.mod_eq_of_lt h.ring.outOffs_lt,
    ← h.ring.inOffs_eq_outOffs hf] at hbytes
  have hcount : b.count = 9 + 1 := by
    rw [h.count]
    omega
  refine ⟨?_, ?_, ?_⟩
  · rw [AesdCircularBuffer.stored, hcount, window_cons, List.head?_cons,
      Nat.mod_eq_of_lt h.ring.outOffs_lt, h.ring.inOffs_eq_outOffs hf]
  · rw [hbytes, List.head?_eq_getElem?, List.getElem?_eq_getElem hlen]
  · have hpos := log.stored_pos _ (List.getElem_mem hlen)
    rw [← hbytes] at hpos
    cases hp : (b.at b.inOffs).buffptr with
    | block id => exact ⟨id, rfl⟩
    | null => simp [hp, Heap.bytes] at hpos
    | zeroSize => simp [hp, Heap.bytes] at hpos

/-- The pointers of the ring: that of slot `in_offs`, and the rest, which an
added entry keeps. -/
theorem ringPtrs_addEntry (hin : b.inOffs < 10) {e : AesdBufferEntry}
    (he : e.buffptr ≠ .null) :
    ∃ rest : Multiset Ptr,
      ringPtrs b = (if (b.at b.inOffs).buffptr = .null then rest
        else (b.at b.inOffs).buffptr ::ₘ rest) ∧
      ringPtrs (aesdCircularBufferAddEntry b e) = e.buffptr ::ₘ rest := by
  have hi : b.inOffs < (slotPtrs b).length := by simpa using hin
  refine ⟨((slotPtrs b).eraseIdx b.inOffs : Multiset Ptr).filter (· ≠ .null), ?_, ?_⟩
  · have hperm := Multiset.coe_eq_coe.mpr (List.getElem_cons_eraseIdx_perm hi)
    rw [ringPtrs, ← hperm, ← Multiset.cons_coe, slotPtrs_getElem]
    split
    · rename_i hnull
      rw [Multiset.filter_cons_of_neg (p := (· ≠ Ptr.null)) _ (by simpa using hnull)]
    · rename_i hnull
      rw [Multiset.filter_cons_of_pos (p := (· ≠ Ptr.null)) _ hnull]
  · have hperm := Multiset.coe_eq_coe.mpr (List.set_perm_cons_eraseIdx hi e.buffptr)
    rw [ringPtrs, slotPtrs_addEntry, hperm, ← Multiset.cons_coe,
      Multiset.filter_cons_of_pos (p := (· ≠ Ptr.null)) _ he]

theorem kfree_freed {id : Nat} (h : kfree heap (.block id) = some heap') :
    heap'.freed = heap.freed ++ [id] := by
  simp only [kfree] at h
  split at h
  · cases h
    rfl
  · cases h

/-- On a full ring the commit frees the block of slot `in_offs`. -/
theorem RingHolds.kfreed_full {dev : AesdDev}
    (h : RingHolds heap dev.circularBuffer held es log.commands)
    (hf : dev.circularBuffer.full = true) :
    ∃ id, (dev.circularBuffer.at dev.circularBuffer.inOffs).buffptr = .block id ∧
      dev.kfreed = some (.block id) := by
  obtain ⟨-, -, id, hid⟩ := h.oldest hf
  refine ⟨id, hid, ?_⟩
  rw [AesdDev.kfreed, if_pos hf, ← h.ring.inOffs_eq_outOffs hf, hid]

theorem AesdDev.kfreed_space {dev : AesdDev} (hf : dev.circularBuffer.full = false) :
    dev.kfreed = none := by
  rw [AesdDev.kfreed, if_neg (by simp [hf])]

/-- The pointers of the ring lose what is freed and gain what is committed. -/
theorem RingHolds.ptrs {dev : AesdDev}
    (h : RingHolds heap dev.circularBuffer held es log.commands) {e : AesdBufferEntry}
    (he : e.buffptr ≠ .null) :
    dev.kfreed.elim 0 singleton ≤ ringPtrs dev.circularBuffer ∧
      ringPtrs (aesdCircularBufferAddEntry dev.circularBuffer e)
        = ringPtrs dev.circularBuffer - dev.kfreed.elim 0 singleton + {e.buffptr} := by
  obtain ⟨rest, hbefore, hafter⟩ := ringPtrs_addEntry h.ring.inOffs_lt he
  rw [hafter, Multiset.add_comm, Multiset.singleton_add]
  cases hf : dev.circularBuffer.full with
  | true =>
      obtain ⟨id, hid, hfreed⟩ := h.kfreed_full hf
      rw [hid, if_neg (by simp)] at hbefore
      rw [hfreed, hbefore, Option.elim_some, Multiset.sub_singleton,
        Multiset.erase_cons_head]
      exact ⟨Multiset.singleton_le.mpr (Multiset.mem_cons_self _ _), rfl⟩
  | false =>
      rw [h.ring.at_inOffs hf, if_pos rfl] at hbefore
      rw [AesdDev.kfreed_space hf, hbefore, Option.elim_none, Multiset.sub_zero]
      exact ⟨Multiset.zero_le _, rfl⟩

/-- **The commit on a device's ring.** -/
theorem RingHolds.evicts {dev : AesdDev}
    (h : RingHolds heap dev.circularBuffer held es log.commands)
    (hp : dev.pWriteBuffer ≠ .null)
    (hfree : dev.kfreed.elim (some heap) (kfree heap) = some heap') :
    Evicts heap dev.circularBuffer ⟨dev.pWriteBuffer, dev.writeBufferSize⟩ dev.kfreed
      heap' (aesdCircularBufferAddEntry dev.circularBuffer
        ⟨dev.pWriteBuffer, dev.writeBufferSize⟩) := by
  have hat := at_addEntry h.ring.inOffs_lt ⟨dev.pWriteBuffer, dev.writeBufferSize⟩
  refine ⟨h.ring.inOffs_lt, fun hf => ?_, fun hf => ?_, ?_, fun i _ hi => ?_, h.ptrs hp⟩
  · obtain ⟨id, hid, hfreed⟩ := h.kfreed_full hf
    rw [hfreed, Option.elim_some] at hfree
    exact ⟨by rw [hfreed, hid], (h.oldest hf).1, id, hid, kfree_freed hfree⟩
  · rw [AesdDev.kfreed_space hf, Option.elim_none, Option.some.injEq] at hfree
    exact ⟨AesdDev.kfreed_space hf, by rw [hfree], h.ring.at_inOffs hf⟩
  · rw [hat, Function.update_self]
  · rw [hat, Function.update_of_ne hi]

end

/-! ## Every commit of every run -/

section
variable {s : DriverState} {buf : UserBuf} {env : WriteEnv} {heap : Heap}
  {dev : AesdDev} {a : LogState}

/-- A write to a freed buffer does not get to its commit; an intact device is
still intact there, with the write buffer grown. -/
theorem Tracks.reachesCommit (h : Tracks s a) (hc : ReachesCommit s buf env heap dev) :
    Grown s a.log buf heap dev.pWriteBuffer false := by
  obtain ⟨heap₁, hk, hcopy⟩ := hc.copied
  by_cases hb : a.buffer = .freed
  · obtain ⟨id, hid, hdead⟩ := (h.dangling hb).dead
    rw [hid, krealloc_dead hdead] at hk
    cases hk
  · have hi := h.intact hb
    rw [hi.krealloc_size] at hk
    by_cases hg : env.kalloc.Grants s.heap.limit (buf.bytes.length + a.log.pending.length)
    · obtain ⟨heap₁', heap', p, hk', hcopy', hgrown⟩ := hi.grow hg
      rw [hk] at hk'
      cases hk'
      rw [hcopy, Option.some.injEq, Prod.mk.injEq] at hcopy'
      obtain ⟨rfl, hf⟩ := hcopy'
      rwa [← hf] at hgrown
    · obtain ⟨es, hr⟩ := hi.ring
      rw [krealloc_null hr.owned hg, Option.some.injEq, Prod.mk.injEq] at hk
      exact absurd hk.2.symm hc.granted

end

/-- **A commit frees exactly what it overwrites.** After any calls on the
device, a write that gets to its commit succeeds, and it frees the pointer of
the slot it then writes, which is the oldest entry's, if the ring was full,
and nothing if the slot was unused; the other slots keep theirs. -/
theorem commit_frees_overwritten {limit : Nat} {hl : limit ≤ 2 ^ 56} {fPos : Nat → Int}
    {ops : List Op} {rs : List Reply} {d : Device} {c : WriteCall} {heap : Heap}
    {dev : AesdDev}
    (h : run Device.step (.init limit hl fPos) ops = some (rs, d))
    (hc : ReachesCommit d.driver c.buf c.env heap dev) :
    ∃ s', aesdWrite d.driver c.buf c.env = some ((c.buf.bytes.length : Int), s') ∧
      Evicts heap d.driver.aesdDevice.circularBuffer
        ⟨dev.pWriteBuffer, dev.writeBufferSize⟩ dev.kfreed s'.heap
        s'.aesdDevice.circularBuffer ∧
      (d.driver.aesdDevice.circularBuffer.full = true →
        (commandLog (accepted ops rs)).stored.head? = some (heap.bytes
          (d.driver.aesdDevice.circularBuffer.at
            d.driver.aesdDevice.circularBuffer.inOffs).buffptr)) := by
  obtain ⟨a, -, ht, hlog⟩ := run_tracks h
  obtain ⟨⟨es, hr⟩, -, -, -, -, -⟩ := ht.state.reachesCommit hc
  have hsize : toI64 (c.buf.bytes.length : Int) = c.buf.bytes.length :=
    toI64_natCast (by have := c.buf.lt; omega)
  rw [← hlog]
  rw [← hc.ring] at hr ⊢
  obtain ⟨heap', hfree, -, -⟩ := hr.commit
  have hkfreed : dev.kfreed.elim (some heap) (kfree heap) = some heap' := by
    rw [← hfree, AesdDev.kfreed]
    split <;> rfl
  refine ⟨⟨heap', .null, 0, aesdCircularBufferAddEntry dev.circularBuffer
    ⟨dev.pWriteBuffer, dev.writeBufferSize⟩⟩, ?_, hr.evicts hc.granted hkfreed,
    fun hf => (hr.oldest hf).2.1⟩
  rw [hc.aesdWrite, aesdWriteCommit_kfreed, hkfreed, hsize]
  rfl

/-- The eleventh command is written over the first, whose block is freed. -/
theorem commit_frees_overwritten_eleventh :
    let ops := List.replicate 10 (Op.write (.quiet 0 [97, 10] (by decide)))
    let c := WriteCall.quiet 0 [98, 10] (by decide)
    ∃ rs d heap, ∃ dev : AesdDev, ∃ s',
      run Device.step (.init 4096 (by decide) fun _ => 0) ops = some (rs, d) ∧
      aesdWrite d.driver c.buf c.env = some (2, s') ∧
      Evicts heap d.driver.aesdDevice.circularBuffer
        ⟨dev.pWriteBuffer, dev.writeBufferSize⟩ (some (.block 0)) s'.heap
        s'.aesdDevice.circularBuffer := by
  intro ops c
  have h : (run Device.step (.init 4096 (by decide) fun _ => 0) ops).bind
      (fun p => (aesdWrite p.2.driver c.buf c.env).map fun q =>
        (p.2.driver.aesdDevice.circularBuffer.full,
          p.2.driver.aesdDevice.circularBuffer.at
            p.2.driver.aesdDevice.circularBuffer.inOffs,
          decide (q.2.aesdDevice.circularBuffer
            = p.2.driver.aesdDevice.circularBuffer)))
      = some (true, ⟨.block 0, 2⟩, false) := by decide
  obtain ⟨⟨rs, d⟩, hr, hw⟩ := Option.bind_eq_some_iff.mp h
  obtain ⟨⟨ret, s''⟩, hw, hq⟩ := Option.map_eq_some_iff.mp hw
  simp only [Prod.mk.injEq, decide_eq_false_iff_not] at hq
  obtain ⟨hfull, hat, hne⟩ := hq
  obtain ⟨heap, dev, hc⟩ := (aesdWrite_ring hw).resolve_left hne
  obtain ⟨s', hs', he, -⟩ := commit_frees_overwritten hr hc
  refine ⟨rs, d, heap, dev, s', hr, hs', ?_⟩
  rwa [(he.full hfull).1, hat] at he

end Aesd.Driver
