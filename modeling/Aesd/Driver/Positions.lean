import Aesd.Driver.Refine

/-!
# Reads and positions

What `aesd_read`, `aesd_llseek` and `aesd_ioctl` compute from the ring, in
terms of the stored commands alone. Each of the three walks the ring in its
own way; `RingHolds` is all they need, so their results hold also for a
device whose write buffer was freed.
-/

namespace Aesd.Driver

open Aesd.Lib

/-! ## The results, from the commands -/

/-- `aesd_read`. On an empty ring the search finds slot `out_offs`, whose
`buffptr` is `NULL`: one byte or more from there is undefined. -/
def readResult (stored : List (List UInt8)) (fPos : Int) (count : Nat)
    (env : CallEnv) : Option (Int × List UInt8 × Int) :=
  if env.interrupted then some (-eRestartSys, [], fPos)
  else if stored = [] then
    if toU64 fPos = 0 ∨ count = 0 then some (0, [], toI64 fPos) else none
  else
    match locate (stored.map List.length) (toU64 fPos) with
    | none => some (0, [], fPos)
    | some (i, k) =>
        let bytes := ((stored[i]?.getD []).drop k).take count
        if env.fault && decide (bytes ≠ []) then some (0, [], fPos)
        else some (bytes.length, bytes, toI64 (fPos + bytes.length))

/-- `sum += size` of an `int` and a `size_t`. -/
def addSize (sum : Int) (size : Nat) : Int := toI32 (toU64 (sum + size))

/-- The sizes of some commands, added up as the driver does. -/
def sizesSum (commands : List (List UInt8)) : Int :=
  (commands.map List.length).foldl addSize 0

/-- `aesd_llseek`. The loop of `SEEK_END` stops at once when the ring is
full. -/
def llseekResult (stored : List (List UInt8)) (fPos off whence : Int)
    (interrupted : Bool) : Int × Int :=
  if whence = 0 then aesdLlseekTo fPos (toI64 off)
  else if whence = 1 then aesdLlseekTo fPos (toI64 (fPos + off))
  else if whence = 2 then
    if interrupted then (-eRestartSys, fPos)
    else
      let fileSize := if stored.length < 10 then sizesSum stored else 0
      aesdLlseekTo fPos (toI64 (toI32 (fileSize - 1) + off))
  else (-eInval, fPos)

/-- `aesd_ioctl`. Command 10 is looked up in slot 0 of the ring order, like
command 0. -/
def ioctlResult (stored : List (List UInt8)) (fPos : Int) (cmd : Nat)
    (seekto : AesdSeekto) (env : CallEnv) : Int × Int :=
  if cmd ≠ aesdcharIocseekto then (-eInval, fPos)
  else if env.fault then (-eFault, fPos)
  else if env.interrupted then (-eRestartSys, fPos)
  else if seekto.writeCmd.toNat > maxWriteOperationsSupported then (-eInval, fPos)
  else
    let i := seekto.writeCmd.toNat % 10
    let offset := seekto.writeCmdOffset.toNat
    if offset < toU32 (toI32 (stored[i]?.getD []).length) then
      (0, toI64 (fPos + toI32 (toU32 (sizesSum (stored.take i) + offset))))
    else (-eInval, fPos)

theorem sizesSum_eq {commands : List (List UInt8)} (h : commands.flatten.length < 2 ^ 31) :
    sizesSum commands = commands.flatten.length := by
  have hfold : ∀ (sizes : List Nat) (v : Nat), v + sizes.sum < 2 ^ 31 →
      sizes.foldl addSize (v : Int) = ((v + sizes.sum : Nat) : Int) := by
    intro sizes
    induction sizes with
    | nil => simp
    | cons n sizes ih =>
        intro v hv
        rw [List.sum_cons] at hv
        have hadd : addSize v n = ((v + n : Nat) : Int) := by
          have hcast : ((v : Int) + (n : Int)) = ((v + n : Nat) : Int) := by omega
          rw [addSize, hcast, toU64_natCast (by omega), toI32_natCast (by omega)]
        rw [List.foldl_cons, hadd, ih (v + n) (by omega), List.sum_cons]
        omega
  rw [List.length_flatten] at h ⊢
  have := hfold (commands.map List.length) 0 (by omega)
  rw [Nat.zero_add] at this
  exact this

/-! ## The ring -/

section
variable {heap : Heap} {b : AesdCircularBuffer} {held : Ptr}
  {es : List AesdBufferEntry} {log : CommandLog}

/-- A stored command is what its entry's block holds, and no larger than the
allocator allows. -/
theorem RingHolds.stored_le_limit (h : RingHolds heap b held es log.commands) :
    ∀ c ∈ log.stored, c.length ≤ heap.limit := by
  intro c hc
  have hb := h.bytes
  rw [CommandLog.stored, ← hb] at hc
  obtain ⟨e, -, rfl⟩ := List.mem_map.mp hc
  exact heap.bytes_le _

theorem RingHolds.stored_le (h : RingHolds heap b held es log.commands) :
    ∀ c ∈ log.stored, c.length ≤ 2 ^ 56 := fun c hc =>
  Nat.le_trans (h.stored_le_limit c hc) heap.limit_le

theorem RingHolds.contents_le (h : RingHolds heap b held es log.commands) :
    log.contents.length ≤ 10 * heap.limit := by
  have hlen := log.stored_length
  have hflat := flatten_length_le h.stored_le_limit
  have hten : log.stored.length * heap.limit ≤ 10 * heap.limit :=
    Nat.mul_le_mul_right _ (by omega)
  rw [CommandLog.contents]
  omega

theorem RingHolds.contents_lt (h : RingHolds heap b held es log.commands) :
    log.contents.length < 2 ^ 60 := by
  have hle := h.contents_le
  have hlimit := heap.limit_le
  omega

theorem RingHolds.sizes_eq (h : RingHolds heap b held es log.commands) :
    b.sizes = log.stored.map List.length :=
  h.sizes

theorem RingHolds.entry (h : RingHolds heap b held es log.commands) {i : Nat}
    (hi : i < log.stored.length) :
    b.at ((b.outOffs + i) % 10) ∈ b.stored ∧
      (b.at ((b.outOffs + i) % 10)).size = (log.stored[i]).length ∧
      heap.bytes (b.at ((b.outOffs + i) % 10)).buffptr = log.stored[i] := by
  have hcount : b.count = log.stored.length := by
    rw [h.count, log.stored_length, Nat.min_comm]
  have hi' : i < b.count := by omega
  have hget := window_getElem? b.at 10 b.outOffs hi'
  refine ⟨mem_window.mpr ⟨i, hi', rfl⟩, ?_, ?_⟩
  · have hs := congrArg (·[i]?) h.sizes_eq
    simp only [AesdCircularBuffer.sizes, AesdCircularBuffer.stored,
      List.getElem?_map, hget, List.getElem?_eq_getElem hi, Option.map_some,
      Option.some.injEq] at hs
    exact hs
  · have hb := congrArg (·[i]?) h.bytes
    simp only [AesdCircularBuffer.stored, List.getElem?_map, hget,
      Option.map_some] at hb
    have hst : (log.commands.rtake 10)[i]? = some log.stored[i] :=
      List.getElem?_eq_getElem hi
    rw [hst, Option.some.injEq] at hb
    exact hb

theorem RingHolds.entry_unused (h : RingHolds heap b held es log.commands)
    {i : Nat} (hi : log.stored.length ≤ i) (hi10 : i < 10) :
    b.at ((b.outOffs + i) % 10) = ⟨.null, 0⟩ := by
  have hcount : b.count = log.stored.length := by
    rw [h.count, log.stored_length, Nat.min_comm]
  refine h.ring.at_unused fun j hj => ?_
  exact mod_add_ne _ (by omega) (by omega)

/-! ### `aesd_read` -/

/-- **The search on a device's ring** is `locate` on the commands, unless
there is none. -/
theorem RingHolds.find (h : RingHolds heap b held es log.commands)
    (hne : log.stored ≠ []) (p rtn : Nat) :
    aesdCircularBufferFindEntryOffsetForFpos b p rtn
      = some (found b.outOffs rtn (locate (log.stored.map List.length) p)) := by
  have hcontents := h.contents_lt
  rw [CommandLog.contents, List.length_flatten] at hcontents
  have hpos := log.stored_pos
  rw [← h.sizes_eq] at hcontents ⊢
  cases hs : log.stored with
  | nil => exact absurd hs hne
  | cons c cs =>
      rw [hs] at hpos
      have hsizes : b.sizes = c.length :: cs.map List.length := by
        rw [h.sizes_eq, hs, List.map_cons]
      exact find_of_pos h.ring hsizes (hpos c (by simp)) (by omega)

/-- On an empty ring the search finds slot `out_offs`, at the position asked
for. -/
theorem RingHolds.find_empty (h : RingHolds heap b held es log.commands)
    (hnil : log.stored = []) {p : Nat} (hp : p < 2 ^ 64) (rtn : Nat) :
    b.at b.outOffs = ⟨.null, 0⟩ ∧
      aesdCircularBufferFindEntryOffsetForFpos b p rtn = some (some b.outOffs, p) := by
  have hout := h.ring.outOffs_lt
  have hat := h.entry_unused (i := 0) (by simp [hnil]) (by omega)
  rw [Nat.add_zero, Nat.mod_eq_of_lt hout] at hat
  exact ⟨hat, find_of_zero (by rw [hat]) hp⟩

/-- A wrapped `size - offset` is not zero unless the offset is. -/
theorem toU64_zero_sub {p : Nat} (hp : p < 2 ^ 64) :
    toU64 (((0 : Nat) : Int) - (p : Int)) = 0 ↔ p = 0 := by
  unfold toU64
  omega

/-- What is copied when there is no command: the bytes from the position on
of the slot's null pointer, of which there seem to be enough. -/
theorem RingHolds.readPlan_empty {s : DriverState}
    (h : RingHolds s.heap s.aesdDevice.circularBuffer held es log.commands)
    (hnil : log.stored = []) (fPos : Int) (count : Nat) :
    ∃ n, aesdReadPlan s.aesdDevice fPos count
        = some (some ⟨⟨.null, 0⟩, toU64 fPos, n⟩) ∧
      (n = 0 ↔ toU64 fPos = 0 ∨ count = 0) := by
  obtain ⟨hat, hfind⟩ := h.find_empty hnil (toU64_lt fPos) 0
  have hz := toU64_zero_sub (toU64_lt fPos)
  refine ⟨if toU64 (((0 : Nat) : Int) - (toU64 fPos : Int)) > count then count
    else toU64 (((0 : Nat) : Int) - (toU64 fPos : Int)), ?_, ?_⟩
  · simp only [aesdReadPlan, hfind, hat, Option.bind_eq_bind, Option.bind_some,
      Option.pure_def]
  · rw [← hz]
    split <;> omega

/-- What is copied when there are commands: nothing past their end, else what
is left of the command the position falls into, up to `count`. -/
theorem RingHolds.readPlan {s : DriverState}
    (h : RingHolds s.heap s.aesdDevice.circularBuffer held es log.commands)
    (hne : log.stored ≠ []) (fPos : Int) (count : Nat) :
    (locate (log.stored.map List.length) (toU64 fPos) = none ∧
      aesdReadPlan s.aesdDevice fPos count = some none) ∨
    ∃ i k, ∃ hi : i < log.stored.length,
      locate (log.stored.map List.length) (toU64 fPos) = some (i, k) ∧
      k < (log.stored[i]).length ∧
      aesdReadPlan s.aesdDevice fPos count = some (some
        ⟨s.aesdDevice.circularBuffer.at ((s.aesdDevice.circularBuffer.outOffs + i) % 10),
          k, min ((log.stored[i]).length - k) count⟩) := by
  have hfind := h.find hne (toU64 fPos) 0
  cases hl : locate (log.stored.map List.length) (toU64 fPos) with
  | none =>
      left
      refine ⟨rfl, ?_⟩
      rw [hl] at hfind
      simp [aesdReadPlan, hfind, found]
  | some ik =>
      right
      obtain ⟨i, k⟩ := ik
      obtain ⟨hi, hk, -⟩ := drop_flatten_of_locate hl
      obtain ⟨-, hsize, -⟩ := h.entry hi
      refine ⟨i, k, hi, rfl, hk, ?_⟩
      rw [hl] at hfind
      have hle := h.stored_le _ (List.getElem_mem hi)
      have havail : toU64 (((log.stored[i]).length : Int) - (k : Int))
          = (log.stored[i]).length - k := by
        have := toU64_of_range (x := ((log.stored[i]).length : Int) - (k : Int))
          (by omega) (by omega)
        omega
      simp only [aesdReadPlan, hfind, found, Option.bind_eq_bind, Option.bind_some,
        hsize, havail, Option.pure_def, Option.some.injEq, ReadPlan.mk.injEq, true_and]
      split <;> omega

theorem aesdRead_of_plan {s : DriverState} {fPos : Int} {count : Nat} {env : CallEnv}
    {plan : ReadPlan} (hint : env.interrupted = false)
    (hp : aesdReadPlan s.aesdDevice fPos count = some (some plan)) :
    Driver.aesdRead s fPos count env
      = (s.heap.read plan.pEntry.buffptr plan.offset plan.bytesToCopy).map fun bytes =>
        if env.fault && decide (plan.bytesToCopy ≠ 0) then (0, [], fPos)
        else (toI64 plan.bytesToCopy, bytes, toI64 (fPos + plan.bytesToCopy)) := by
  simp only [Driver.aesdRead, hint, hp, Bool.false_eq_true, if_false,
    Option.bind_eq_bind, Option.bind_some, copyToUser, Option.pure_def]
  cases s.heap.read plan.pEntry.buffptr plan.offset plan.bytesToCopy with
  | none => rfl
  | some bytes =>
      simp only [Option.bind_some, Option.map_some]
      cases env.fault && decide (plan.bytesToCopy ≠ 0) with
      | true => rfl
      | false => simp only [Bool.false_eq_true, if_false]

/-- **`aesd_read` refines the log.** -/
theorem RingHolds.aesdRead {s : DriverState}
    (h : RingHolds s.heap s.aesdDevice.circularBuffer held es log.commands)
    (fPos : Int) (count : Nat) (env : CallEnv) :
    Driver.aesdRead s fPos count env = readResult log.stored fPos count env := by
  cases hint : env.interrupted with
  | true => simp [Driver.aesdRead, readResult, hint]
  | false =>
      simp only [readResult, hint, Bool.false_eq_true, if_false]
      by_cases hne : log.stored = []
      · obtain ⟨n, hplan, hn⟩ := h.readPlan_empty hne fPos count
        rw [aesdRead_of_plan hint hplan, if_pos hne]
        by_cases h0 : toU64 fPos = 0 ∨ count = 0
        · have hn0 := hn.mpr h0
          subst hn0
          rw [if_pos h0]
          simp [Heap.read, toI64]
        · rw [if_neg h0, Heap.read_null rfl (fun hn0 => h0 (hn.mp hn0))]
          rfl
      · rw [if_neg hne]
        rcases h.readPlan hne fPos count with ⟨hl, hplan⟩ | ⟨i, k, hi, hl, hk, hplan⟩
        · simp [Driver.aesdRead, hint, hl, hplan]
        · obtain ⟨hmem, -, hbytes⟩ := h.entry hi
          have hroom : k + min ((log.stored[i]).length - k) count
              ≤ (s.heap.bytes (s.aesdDevice.circularBuffer.at
                ((s.aesdDevice.circularBuffer.outOffs + i) % 10)).buffptr).length := by
            rw [hbytes]
            omega
          have hread := Heap.read_spec h.owned
            (List.mem_cons_of_mem _ (buffptr_mem_slotPtrs hmem)) hroom
          have hlen : (((log.stored[i]).drop k).take count).length
              = min ((log.stored[i]).length - k) count := by
            rw [List.length_take, List.length_drop, Nat.min_comm]
          have htake : ((log.stored[i]).drop k).take
                (min ((log.stored[i]).length - k) count)
              = ((log.stored[i]).drop k).take count := by
            rw [← List.length_drop, Nat.min_comm, ← List.take_eq_take_min]
          rw [hbytes, htake] at hread
          have hle := h.stored_le _ (List.getElem_mem hi)
          rw [aesdRead_of_plan hint hplan, hread, hl]
          simp only [Option.map_some, List.getElem?_eq_getElem hi, Option.getD_some,
            ← hlen, toI64_natCast (n := (((log.stored[i]).drop k).take count).length)
              (by omega), List.length_eq_zero_iff, ne_eq]
          split <;> rfl

/-! ### `aesd_llseek` and `aesd_ioctl` -/

/-- The loop over the ring, from a slot to one less than a turn away. -/
theorem sumSizes_spec (m : Nat) : ∀ {a fuel : Nat} (sum : Int), m < 10 → m < fuel →
    sumSizes b ((a + m) % 10) fuel (a % 10) sum
      = some (((window b.at 10 a m).map AesdBufferEntry.size).foldl addSize sum) := by
  induction m with
  | zero =>
      intro a fuel sum _ hfuel
      obtain ⟨fuel, rfl⟩ : ∃ f, fuel = f + 1 := ⟨fuel - 1, by omega⟩
      simp [sumSizes]
  | succ m ih =>
      intro a fuel sum hm hfuel
      obtain ⟨fuel, rfl⟩ : ∃ f, fuel = f + 1 := ⟨fuel - 1, by omega⟩
      have hne : a % 10 ≠ (a + (m + 1)) % 10 :=
        mod_add_ne a (i := 0) (by omega) (by omega)
      have hnext : (a % 10 + 1) % maxWriteOperationsSupported = (a + 1) % 10 := by
        simp only [maxWriteOperationsSupported]
        omega
      rw [sumSizes, if_pos hne, hnext, show a + (m + 1) = a + 1 + m by omega,
        ih _ (by omega) (by omega), window_cons, List.map_cons, List.foldl_cons]
      rfl

theorem window_take (slot : Nat → AesdBufferEntry) {out m n : Nat} (h : m ≤ n) :
    (window slot 10 out n).take m = window slot 10 out m := by
  rw [window, window, ← List.map_take, List.take_range, Nat.min_eq_left h]

theorem RingHolds.sumSizes (h : RingHolds heap b held es log.commands) {m : Nat}
    (hm : m < 10) (hle : m ≤ log.stored.length) :
    Driver.sumSizes b ((b.outOffs + m) % 10) 10 b.outOffs 0
      = some (sizesSum (log.stored.take m)) := by
  have hout := h.ring.outOffs_lt
  have hcount : b.count = log.stored.length := by
    rw [h.count, log.stored_length, Nat.min_comm]
  have hs := sumSizes_spec (b := b) (a := b.outOffs) m 0 hm hm
  rw [Nat.mod_eq_of_lt hout] at hs
  rw [hs, sizesSum, List.map_take, ← h.sizes_eq, AesdCircularBuffer.sizes,
    AesdCircularBuffer.stored, ← List.map_take, window_take _ (by omega)]

/-- What the loop of `SEEK_END` adds up: on a full ring it does not start. -/
theorem RingHolds.fileSize (h : RingHolds heap b held es log.commands) :
    Driver.sumSizes b b.inOffs maxWriteOperationsSupported b.outOffs 0
      = some (if log.stored.length < 10 then sizesSum log.stored else 0) := by
  have hcount := h.count
  have hstored := log.stored_length
  have hout := h.ring.outOffs_lt
  rw [← h.ring.end_eq]
  by_cases hlt : log.stored.length < 10
  · rw [if_pos hlt, show b.count = log.stored.length by omega,
      h.sumSizes hlt (Nat.le_refl _), List.take_length]
  · rw [if_neg hlt, show b.count = 10 by omega, Nat.add_mod_right, Nat.mod_eq_of_lt hout]
    simp [Driver.sumSizes]

/-- **`aesd_llseek` refines the log.** -/
theorem RingHolds.aesdLlseek {s : DriverState}
    (h : RingHolds s.heap s.aesdDevice.circularBuffer held es log.commands)
    (fPos off whence : Int) (interrupted : Bool) :
    Driver.aesdLlseek s fPos off whence interrupted
      = some (llseekResult log.stored fPos off whence interrupted) := by
  simp only [Driver.aesdLlseek, llseekResult, h.fileSize, Option.bind_eq_bind,
    Option.bind_some, Option.pure_def]
  split
  · rfl
  split
  · rfl
  split
  · split <;> rfl
  · rfl

theorem RingHolds.cmdSize (h : RingHolds heap b held es log.commands) {i : Nat}
    (hi : i < 10) :
    (b.at ((b.outOffs + i) % 10)).size = (log.stored[i]?.getD []).length := by
  rcases Nat.lt_or_ge i log.stored.length with hlt | hge
  · rw [(h.entry hlt).2.1, List.getElem?_eq_getElem hlt, Option.getD_some]
  · rw [h.entry_unused hge hi, List.getElem?_eq_none hge]
    rfl

/-- **`aesd_ioctl` refines the log.** -/
theorem RingHolds.aesdIoctl {s : DriverState}
    (h : RingHolds s.heap s.aesdDevice.circularBuffer held es log.commands)
    (fPos : Int) (cmd : Nat) (seekto : AesdSeekto) (env : CallEnv) :
    Driver.aesdIoctl s fPos cmd seekto env
      = some (ioctlResult log.stored fPos cmd seekto env) := by
  have hout := h.ring.outOffs_lt
  simp only [Driver.aesdIoctl, ioctlResult]
  split
  · rename_i hcmd
    rw [if_neg (not_not.mpr hcmd)]
    split
    · rfl
    split
    · rfl
    split
    · rfl
    rename_i hle
    have hle : seekto.writeCmd.toNat ≤ 10 := Nat.le_of_not_gt hle
    have hi : seekto.writeCmd.toNat % 10 < 10 := by omega
    have hidx : toU32 ((seekto.writeCmd.toNat : Int) + s.aesdDevice.circularBuffer.outOffs)
          % maxWriteOperationsSupported
        = (s.aesdDevice.circularBuffer.outOffs + seekto.writeCmd.toNat % 10) % 10 := by
      have := toU32_natCast (n := seekto.writeCmd.toNat
        + s.aesdDevice.circularBuffer.outOffs) (by omega)
      push_cast at this
      rw [this]
      simp only [maxWriteOperationsSupported]
      omega
    rw [hidx, h.cmdSize hi]
    split
    · rename_i hoff
      have hlt : seekto.writeCmd.toNat % 10 < log.stored.length := by
        by_contra hge
        rw [List.getElem?_eq_none (by omega)] at hoff
        simp [toI32, toU32] at hoff
      rw [show maxWriteOperationsSupported = 10 from rfl, h.sumSizes hi (by omega)]
      rfl
    · rfl
  · rfl

end

end Aesd.Driver
