import Aesd.Driver.Locking
import Aesd.Driver.LogDevice

/-!
# A call on its own

The statements of a call, from the one after the lock to the unlock and with no
other call in between, do what the call does in one step
(`DeviceTracks.result_alone`).
-/

namespace Aesd.Driver

open Aesd.Lib

/-! ## A call on its own -/

/-- A call from `pc` to its unlock, with no other call in between: the reply, the
driver and the file's position. -/
def Op.alone (op : Op) : Nat → CallPc → DriverState → Int →
    Option (Reply × DriverState × Int)
  | _, .unlock r, s, fPos => some (r, s, fPos)
  | _, .unlockSize fileSize, s, fPos =>
      let (ret, pos) := aesdLlseekTo fPos (op.newpos fileSize)
      some (⟨ret, []⟩, s, pos)
  | 0, _, _, _ => none
  | n + 1, pc, s, fPos => do
      let (pc, s, fPos) ← op.statement s fPos pc
      op.alone n pc s fPos

section
variable {op : Op} {s : DriverState} {fPos : Int}

@[simp] theorem Op.alone_unlock (n : Nat) (r : Reply) :
    op.alone n (.unlock r) s fPos = some (r, s, fPos) := by
  cases n <;> rfl

theorem Op.alone_succ {pc pc' : CallPc} {s' : DriverState} {fPos' : Int}
    (h : op.statement s fPos pc = some (pc', s', fPos')) (n : Nat) :
    op.alone (n + 1) pc s fPos = op.alone n pc' s' fPos' := by
  cases pc with
  | unlock r => cases op <;> cases h
  | unlockSize fileSize => cases op <;> cases h
  | _ =>
      show (op.statement s fPos _ >>= _) = _
      rw [h]
      rfl

theorem Op.alone_none {pc : CallPc} (hpc : pc.inside = true)
    (h : op.statement s fPos pc = none) (hr : ∀ r, pc ≠ .unlock r)
    (hsize : ∀ n, pc ≠ .unlockSize n) (n : Nat) : op.alone n pc s fPos = none := by
  cases n with
  | zero => cases pc <;> first | rfl | exact absurd rfl (hr _) | exact absurd rfl (hsize _)
  | succ n =>
      cases pc with
      | unlock r => exact absurd rfl (hr r)
      | unlockSize k => exact absurd rfl (hsize k)
      | _ =>
          show (op.statement s fPos _ >>= _) = _
          rw [h]
          rfl

end

/-- **The statements of `aesd_write`** make up `aesdWrite`. -/
theorem alone_write {c : WriteCall} {s : DriverState} (fPos : Int)
    (hint : c.env.interrupted = false) (n : Nat) :
    (Op.write c).alone (n + 9) .krealloc s fPos
      = (aesdWrite s c.buf c.env).map fun p => (⟨p.1, []⟩, p.2, fPos) := by
  obtain ⟨heap, dev⟩ := s
  simp only [aesdWrite, hint, Bool.false_eq_true, if_false, Option.bind_eq_bind]
  -- each call on the heap is defined for the statement and for the function alike
  cases hk : krealloc heap dev.pWriteBuffer
      (toU64 (c.buf.bytes.length + dev.writeBufferSize)) c.env.kalloc with
  | none => simp [Op.alone, Op.statement, writeStatement, hk]
  | some p =>
      obtain ⟨heap₁, pTmp⟩ := p
      have hrealloc : (Op.write c).statement ⟨heap, dev⟩ fPos .krealloc
          = some (.tmp pTmp, ⟨heap₁, dev⟩, fPos) := by
        simp [Op.statement, writeStatement, hk]
      rw [Op.alone_succ hrealloc]
      by_cases hnull : pTmp = .null
      · cases hf : kfree heap₁ dev.pWriteBuffer with
        | none => simp [Op.alone, Op.statement, writeStatement, hnull, hf]
        | some heap₂ => simp [Op.alone, Op.statement, writeStatement, hnull, hf]
      · have htmp : (Op.write c).statement ⟨heap₁, dev⟩ fPos (.tmp pTmp)
            = some (.copyFrom, ⟨heap₁, { dev with pWriteBuffer := pTmp }⟩, fPos) := by
          simp [Op.statement, writeStatement, hnull]
        rw [Op.alone_succ htmp]
        cases hc : copyFromUser heap₁ pTmp dev.writeBufferSize c.buf.bytes c.env.fault with
        | none => simp [Op.alone, Op.statement, writeStatement, hnull, hc]
        | some q =>
            obtain ⟨heap₂, uncopied⟩ := q
            cases uncopied with
            | true => simp [Op.alone, Op.statement, writeStatement, hnull, hc]
            | false =>
                cases hm : memchr heap₂ pTmp newline
                    (toU64 (dev.writeBufferSize + c.buf.bytes.length)) with
                | none => simp [Op.alone, Op.statement, writeStatement, hnull, hc, hm]
                | some b =>
                    cases b with
                    | false => simp [Op.alone, Op.statement, writeStatement, hnull, hc, hm]
                    | true =>
                        cases hfull : dev.circularBuffer.full with
                        | false =>
                            simp [Op.alone, Op.statement, writeStatement, hnull, hc, hm, hfull,
                              aesdWriteCommit]
                        | true =>
                            cases hf : kfree heap₂
                                (dev.circularBuffer.at dev.circularBuffer.outOffs).buffptr <;>
                              simp [Op.alone, Op.statement, writeStatement, hnull, hc, hm, hfull,
                                aesdWriteCommit, hf]

/-- **The statements of `aesd_read`** make up `aesdRead`. -/
theorem alone_read {c : ReadCall} (s : DriverState) (fPos : Int)
    (hint : c.env.interrupted = false) (n : Nat) :
    (Op.read c).alone (n + 4) .find s fPos
      = (aesdRead s fPos c.count c.env).map fun p => (⟨p.1, p.2.1⟩, s, p.2.2) := by
  simp only [aesdRead, hint, Bool.false_eq_true, if_false, Option.bind_eq_bind]
  cases hp : aesdReadPlan s.aesdDevice fPos c.count with
  | none => simp [Op.alone, Op.statement, readStatement, hp]
  | some plan =>
      cases plan with
      | none => simp [Op.alone, Op.statement, readStatement, hp]
      | some plan =>
          cases hc : copyToUser s.heap plan.pEntry.buffptr plan.offset plan.bytesToCopy
              c.env.fault with
          | none => simp [Op.alone, Op.statement, readStatement, hp, hc]
          | some bytes =>
              cases bytes <;> simp [Op.alone, Op.statement, readStatement, hp, hc]

/-- **The loop of `SEEK_END`** adds up the sizes. -/
theorem alone_fileSize {f : Nat} {off whence : Int} {i : Bool} {s : DriverState} {fPos : Int}
    {fuel idx : Nat} {sum fileSize : Int}
    (h : sumSizes s.aesdDevice.circularBuffer s.aesdDevice.circularBuffer.inOffs fuel idx sum
      = some fileSize) {n : Nat} (hn : fuel ≤ n) :
    (Op.llseek f off whence i).alone n (.fileSize idx sum) s fPos
      = (Op.llseek f off whence i).alone 0 (.unlockSize fileSize) s fPos := by
  induction fuel generalizing idx sum n with
  | zero => cases h
  | succ fuel ih =>
      obtain ⟨n, rfl⟩ := Nat.exists_eq_add_of_le' (Nat.le_trans (Nat.succ_le_succ fuel.zero_le) hn)
      unfold sumSizes at h
      split at h
      · rename_i hne
        rw [← ih h (show fuel ≤ n by omega)]
        refine Op.alone_succ ?_ n
        simp [Op.statement, llseekStatement, hne]
      · rename_i heq
        cases h
        simp [Op.alone, Op.statement, llseekStatement, heq]

/-- **The loop of `AESDCHAR_IOCSEEKTO`** adds up the sizes. -/
theorem alone_commandOffset {f cmd cmdIdx : Nat} {seekto : AesdSeekto} {env : CallEnv}
    {s : DriverState} {fPos : Int} {fuel idx : Nat} {sum offset : Int}
    (h : sumSizes s.aesdDevice.circularBuffer cmdIdx fuel idx sum = some offset) {n : Nat}
    (hn : fuel + 1 ≤ n) :
    (Op.ioctl f cmd seekto env).alone n (.commandOffset cmdIdx idx sum) s fPos
      = some (⟨0, []⟩, s,
        toI64 (fPos + toI32 (toU32 (offset + seekto.writeCmdOffset.toNat)))) := by
  induction fuel generalizing idx sum n with
  | zero => cases h
  | succ fuel ih =>
      obtain ⟨n, rfl⟩ := Nat.exists_eq_add_of_le'
        (Nat.le_trans (Nat.succ_le_succ (Nat.succ_le_succ fuel.zero_le)) hn)
      unfold sumSizes at h
      split at h
      · rename_i hne
        rw [← ih h (show fuel + 1 ≤ n + 1 by omega)]
        refine Op.alone_succ ?_ (n + 1)
        simp [Op.statement, ioctlStatement, hne]
      · rename_i heq
        cases h
        simp [Op.alone, Op.statement, ioctlStatement, heq]

/-! ## The call as one step -/

/-- What a call does to the driver and the position of its file. -/
def Op.result (s : DriverState) (fPos : Int) : Op → Option (Reply × DriverState × Int)
  | .open _ => some (⟨0, []⟩, s, 0)
  | .write c => (aesdWrite s c.buf c.env).map fun p => (⟨p.1, []⟩, p.2, fPos)
  | .read c => (aesdRead s fPos c.count c.env).map fun p => (⟨p.1, p.2.1⟩, s, p.2.2)
  | .llseek _ off whence interrupted =>
      (aesdLlseek s fPos off whence interrupted).map fun p => (⟨p.1, []⟩, s, p.2)
  | .ioctl _ cmd seekto env =>
      (aesdIoctl s fPos cmd seekto env).map fun p => (⟨p.1, []⟩, s, p.2)

section
variable {op : Op} {d : Device} {a : LogDevice} {s : DriverState} {fPos : Int}

/-- A call on the device is its result on the driver and the file. -/
theorem Device.step_eq_result (d : Device) (op : Op) :
    d.step op = (op.result d.driver (d.fPos op.file)).map fun p =>
      (p.1, ⟨p.2.1, Function.update d.fPos op.file p.2.2⟩) := by
  cases op with
  | «open» f => rfl
  | write c =>
      cases h : aesdWrite d.driver c.buf c.env <;> simp [Device.step, Op.result, h]
  | read c =>
      cases h : aesdRead d.driver (d.fPos c.file) c.count c.env <;>
        simp [Device.step, Op.result, Op.file, h]
  | llseek f off whence interrupted =>
      cases h : aesdLlseek d.driver (d.fPos f) off whence interrupted <;>
        simp [Device.step, Op.result, Op.file, h]
  | ioctl f cmd seekto env =>
      cases h : aesdIoctl d.driver (d.fPos f) cmd seekto env <;>
        simp [Device.step, Op.result, Op.file, h]

theorem Op.result_of_effect {r : Reply} {pos : Int} (h : op.opening fPos = .effect r pos)
    (s : DriverState) : op.result s fPos = some (r, s, pos) := by
  cases op with
  | «open» f =>
      cases h
      rfl
  | write c => cases h
  | read c => cases h
  | llseek f off whence interrupted =>
      simp only [Op.opening] at h
      split at h
      · rename_i hset
        cases h
        simp [Op.result, aesdLlseek, hset]
      split at h
      · rename_i hset hcur
        cases h
        simp [Op.result, aesdLlseek, hcur]
      split at h
      · cases h
      · rename_i hset hcur hend
        cases h
        simp [Op.result, aesdLlseek, hset, hcur, hend]
  | ioctl f cmd seekto env =>
      simp only [Op.opening] at h
      split at h
      · rename_i hcmd
        split at h
        · rename_i hfault
          cases h
          simp [Op.result, aesdIoctl, hcmd, hfault]
        · cases h
      · rename_i hcmd
        cases h
        simp [Op.result, aesdIoctl, hcmd]

theorem Op.result_of_interrupted {pc : CallPc} (h : op.opening fPos = .lock true pc)
    (s : DriverState) : op.result s fPos = some (⟨-eRestartSys, []⟩, s, fPos) := by
  cases op with
  | «open» f => cases h
  | write c =>
      have hint : c.env.interrupted = true := (Opening.lock.inj h).1
      simp [Op.result, aesdWrite, hint]
  | read c =>
      have hint : c.env.interrupted = true := (Opening.lock.inj h).1
      simp [Op.result, aesdRead, hint]
  | llseek f off whence interrupted =>
      simp only [Op.opening] at h
      split at h
      · cases h
      split at h
      · cases h
      split at h
      · rename_i hset hcur hend
        have hint : interrupted = true := (Opening.lock.inj h).1
        simp [Op.result, aesdLlseek, hend, hint]
      · cases h
  | ioctl f cmd seekto env =>
      simp only [Op.opening] at h
      split at h
      · rename_i hcmd
        split at h
        · cases h
        · rename_i hfault
          have hint : env.interrupted = true := (Opening.lock.inj h).1
          simp [Op.result, aesdIoctl, hcmd, hfault, hint]
      · cases h

/-- **A call that has the lock**, run on its own to the unlock, has the result. -/
theorem DeviceTracks.result_alone (h : DeviceTracks d a) {pc : CallPc}
    (hopen : op.opening fPos = .lock false pc) {n : Nat} (hn : 12 ≤ n) :
    op.result d.driver fPos = op.alone n pc d.driver fPos := by
  obtain ⟨held, es, hr⟩ := h.state.ring
  obtain ⟨n, rfl⟩ := Nat.exists_eq_add_of_le' hn
  cases op with
  | «open» f => cases hopen
  | write c =>
      obtain ⟨hint, rfl⟩ := Opening.lock.inj hopen
      exact (alone_write fPos hint (n + 3)).symm
  | read c =>
      obtain ⟨hint, rfl⟩ := Opening.lock.inj hopen
      exact (alone_read d.driver fPos hint (n + 8)).symm
  | llseek f off whence interrupted =>
      simp only [Op.opening] at hopen
      split at hopen
      · cases hopen
      split at hopen
      · cases hopen
      split at hopen
      swap
      · cases hopen
      rename_i hset hcur hend
      obtain ⟨hint, rfl⟩ := Opening.lock.inj hopen
      have hmeasure : (Op.llseek f off whence interrupted).statement d.driver fPos .measure
          = some (.fileSize d.driver.aesdDevice.circularBuffer.outOffs 0, d.driver, fPos) := rfl
      rw [show n + 12 = (n + 11) + 1 by omega, Op.alone_succ hmeasure,
        alone_fileSize hr.fileSize
          (show maxWriteOperationsSupported ≤ n + 11 by simp [maxWriteOperationsSupported])]
      simp only [Op.result, aesdLlseek, hend, hint, hr.fileSize, Op.alone, Op.newpos]
      rfl
  | ioctl f cmd seekto env =>
      simp only [Op.opening] at hopen
      split at hopen
      swap
      · cases hopen
      split at hopen
      · cases hopen
      rename_i hcmd hfault
      obtain ⟨hint, rfl⟩ := Opening.lock.inj hopen
      have hdefined := hr.aesdIoctl (s := d.driver) fPos cmd seekto env
      rw [show n + 12 = (n + 11) + 1 by omega]
      by_cases hgt : seekto.writeCmd.toNat > maxWriteOperationsSupported
      · simp [Op.result, aesdIoctl, hcmd, hfault, hint, hgt, Op.alone, Op.statement,
          ioctlStatement]
      by_cases hoff : seekto.writeCmdOffset.toNat < toU32 (toI32
          (d.driver.aesdDevice.circularBuffer.at (toU32 (seekto.writeCmd.toNat
            + d.driver.aesdDevice.circularBuffer.outOffs)
              % maxWriteOperationsSupported)).size)
      · have hcheck : (Op.ioctl f cmd seekto env).statement d.driver fPos .check
            = some (.commandOffset (toU32 (seekto.writeCmd.toNat
                + d.driver.aesdDevice.circularBuffer.outOffs) % maxWriteOperationsSupported)
              d.driver.aesdDevice.circularBuffer.outOffs 0, d.driver, fPos) := by
          simp [Op.statement, ioctlStatement, hgt, hoff]
        -- the loop ends: the call is defined
        simp only [aesdIoctl, hcmd, hfault, hint, hgt, hoff, if_true, if_false,
          Bool.false_eq_true, Option.bind_eq_bind, Option.bind_eq_some_iff] at hdefined
        obtain ⟨offset, hsum, -⟩ := hdefined
        rw [Op.alone_succ hcheck, alone_commandOffset hsum
          (show maxWriteOperationsSupported + 1 ≤ n + 11 by simp [maxWriteOperationsSupported])]
        simp [Op.result, aesdIoctl, hcmd, hfault, hint, hgt, hoff, hsum]
      · simp [Op.result, aesdIoctl, hcmd, hfault, hint, hgt, hoff, Op.alone, Op.statement,
          ioctlStatement]

theorem Op.statement_inside {s' : DriverState} {fPos' : Int} {pc pc' : CallPc}
    (h : op.statement s fPos pc = some (pc', s', fPos')) : pc'.inside = true := by
  cases op with
  | «open» f => cases h
  | write c =>
      simp only [Op.statement, Option.bind_eq_bind, Option.bind_eq_some_iff] at h
      obtain ⟨⟨pc₁, s₁⟩, hs, h⟩ := h
      cases h
      cases pc <;> simp only [writeStatement, Option.bind_eq_bind, Option.bind_eq_some_iff,
        reduceCtorEq] at hs
      case krealloc =>
        obtain ⟨_, -, hs⟩ := hs
        cases hs
        rfl
      case tmp pTmp =>
        split at hs
        · obtain ⟨_, -, hs⟩ := Option.bind_eq_some_iff.mp hs
          cases hs
          rfl
        · cases hs
          rfl
      case copyFrom =>
        obtain ⟨⟨_, uncopied⟩, -, hs⟩ := hs
        cases uncopied <;> cases hs <;> rfl
      case grow =>
        cases hs
        rfl
      case memchr =>
        obtain ⟨b, -, hs⟩ := hs
        cases b <;> cases hs <;> rfl
      case evict entry =>
        split at hs <;>
        · obtain ⟨_, -, hs⟩ := Option.bind_eq_some_iff.mp hs
          cases hs
          rfl
      case add entry =>
        cases hs
        rfl
      case reset =>
        cases hs
        rfl
  | read c =>
      simp only [Op.statement, Option.bind_eq_bind, Option.bind_eq_some_iff] at h
      obtain ⟨⟨pc₁, _⟩, hs, h⟩ := h
      cases h
      cases pc <;> simp only [readStatement, Option.bind_eq_bind, Option.bind_eq_some_iff,
        reduceCtorEq] at hs
      case find =>
        obtain ⟨plan, -, hs⟩ := hs
        cases plan <;> cases hs <;> rfl
      case copyTo plan =>
        obtain ⟨bytes, -, hs⟩ := hs
        cases bytes <;> cases hs <;> rfl
      case advance plan bytes =>
        cases hs
        rfl
  | llseek f off whence interrupted =>
      simp only [Op.statement, Option.bind_eq_bind, Option.bind_eq_some_iff] at h
      obtain ⟨pc₁, hs, h⟩ := h
      cases h
      cases pc <;> simp only [llseekStatement, reduceCtorEq] at hs
      case measure =>
        cases hs
        rfl
      case fileSize idx sum =>
        split at hs <;> cases hs <;> rfl
  | ioctl f cmd seekto env =>
      simp only [Op.statement, Option.bind_eq_bind, Option.bind_eq_some_iff] at h
      obtain ⟨⟨pc₁, _⟩, hs, h⟩ := h
      cases h
      cases pc <;> simp only [ioctlStatement, reduceCtorEq] at hs
      case check =>
        split at hs
        · cases hs
          rfl
        · split at hs <;> cases hs <;> rfl
      case commandOffset cmdIdx idx sum =>
        split at hs <;> cases hs <;> rfl
      case seek offset =>
        cases hs
        rfl

end

end Aesd.Driver
