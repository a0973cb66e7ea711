import Aesd.Driver.CharDevice

/-!
# The lock of the device

The file operations statement by statement, with `p_dev->lock` explicit, so
that the calls of different files interleave. `Shared.step` is one statement of
one call; a call that finds the lock taken waits. What the kernel decides during
a call is an argument of it, as in `Device.step`, where a call is one step.

Calls on one open file follow each other: a file has one call at a time.
-/

namespace Aesd.Driver

open Aesd.Lib

/-- Where a call is, with the locals it still needs. -/
inductive CallPc where
  | start
  -- `aesd_write`
  | krealloc
  | tmp (pTmp : Ptr)
  | copyFrom
  | grow
  | memchr
  | evict (entry : AesdBufferEntry)
  | add (entry : AesdBufferEntry)
  | reset
  -- `aesd_read`
  | find
  | copyTo (plan : ReadPlan)
  | advance (plan : ReadPlan) (bytes : List UInt8)
  -- `aesd_llseek`
  | measure
  | fileSize (idx : Nat) (fileSize : Int)
  -- `aesd_ioctl`
  | check
  | commandOffset (cmdIdx idx : Nat) (writeCmdOffset : Int)
  | seek (writeCmdOffset : Int)
  -- the ends
  | unlock (r : Reply)
  | unlockSize (fileSize : Int)
  | setPos (newpos : Int)
  | returns (r : Reply)

/-- The file of a call. -/
def Op.file : Op → Nat
  | .open f | .llseek f _ _ _ | .ioctl f _ _ _ => f
  | .write c => c.file
  | .read c => c.file

/-- Whether a call has the lock there. -/
def CallPc.inside : CallPc → Bool
  | .start | .setPos _ | .returns _ => false
  | _ => true

/-- A statement of `aesd_write` under the lock. -/
def writeStatement (buf : UserBuf) (env : WriteEnv) (s : DriverState) :
    CallPc → Option (CallPc × DriverState)
  | .krealloc => do
      let (heap, pTmp) ← krealloc s.heap s.aesdDevice.pWriteBuffer
        (toU64 (buf.bytes.length + s.aesdDevice.writeBufferSize)) env.kalloc
      return (.tmp pTmp, ⟨heap, s.aesdDevice⟩)
  | .tmp pTmp =>
      if pTmp = .null then do
        let heap ← kfree s.heap s.aesdDevice.pWriteBuffer
        return (.unlock ⟨-eNoMem, []⟩, ⟨heap, s.aesdDevice⟩)
      else some (.copyFrom, ⟨s.heap, { s.aesdDevice with pWriteBuffer := pTmp }⟩)
  | .copyFrom => do
      let (heap, uncopied) ← copyFromUser s.heap s.aesdDevice.pWriteBuffer
        s.aesdDevice.writeBufferSize buf.bytes env.fault
      return (if uncopied then .unlock ⟨-eFault, []⟩ else .grow, ⟨heap, s.aesdDevice⟩)
  | .grow =>
      some (.memchr, ⟨s.heap, { s.aesdDevice with
        writeBufferSize := toU64 (s.aesdDevice.writeBufferSize + buf.bytes.length) }⟩)
  | .memchr => do
      let bContainsNewline ← Lib.memchr s.heap s.aesdDevice.pWriteBuffer newline
        s.aesdDevice.writeBufferSize
      return (if bContainsNewline then
          .evict ⟨s.aesdDevice.pWriteBuffer, s.aesdDevice.writeBufferSize⟩
        else .unlock ⟨toI64 buf.bytes.length, []⟩, s)
  | .evict entry => do
      let buffer := s.aesdDevice.circularBuffer
      let heap ←
        if buffer.full then kfree s.heap (buffer.at buffer.outOffs).buffptr
        else some s.heap
      return (.add entry, ⟨heap, s.aesdDevice⟩)
  | .add entry =>
      some (.reset, ⟨s.heap, { s.aesdDevice with
        circularBuffer := aesdCircularBufferAddEntry s.aesdDevice.circularBuffer entry }⟩)
  | .reset =>
      some (.unlock ⟨toI64 buf.bytes.length, []⟩, ⟨s.heap, { s.aesdDevice with
        pWriteBuffer := .null
        writeBufferSize := 0 }⟩)
  | _ => none

/-- A statement of `aesd_read` under the lock. -/
def readStatement (count : Nat) (env : CallEnv) (s : DriverState) (fPos : Int) :
    CallPc → Option (CallPc × Int)
  | .find => do
      match ← aesdReadPlan s.aesdDevice fPos count with
      | none => return (.unlock ⟨0, []⟩, fPos)
      | some plan => return (.copyTo plan, fPos)
  | .copyTo plan => do
      match ← copyToUser s.heap plan.pEntry.buffptr plan.offset plan.bytesToCopy env.fault with
      | none => return (.unlock ⟨0, []⟩, fPos)
      | some bytes => return (.advance plan bytes, fPos)
  | .advance plan bytes =>
      some (.unlock ⟨toI64 plan.bytesToCopy, bytes⟩, toI64 (fPos + plan.bytesToCopy))
  | _ => none

/-- The loop of `SEEK_END`, which reads `in_offs` at each turn. -/
def llseekStatement (buffer : AesdCircularBuffer) : CallPc → Option CallPc
  | .measure => some (.fileSize buffer.outOffs 0)
  | .fileSize idx fileSize =>
      if idx ≠ buffer.inOffs then
        some (.fileSize ((idx + 1) % maxWriteOperationsSupported)
          (toI32 (toU64 (fileSize + (buffer.at idx).size))))
      else some (.unlockSize fileSize)
  | _ => none

/-- A statement of `aesd_ioctl` under the lock. -/
def ioctlStatement (buffer : AesdCircularBuffer) (seekto : AesdSeekto) (fPos : Int) :
    CallPc → Option (CallPc × Int)
  | .check =>
      if seekto.writeCmd.toNat > maxWriteOperationsSupported then
        some (.unlock ⟨-eInval, []⟩, fPos)
      else
        let cmdIdx := toU32 (seekto.writeCmd.toNat + buffer.outOffs)
          % maxWriteOperationsSupported
        let cmdSize := toI32 (buffer.at cmdIdx).size
        if seekto.writeCmdOffset.toNat < toU32 cmdSize then
          some (.commandOffset cmdIdx buffer.outOffs 0, fPos)
        else some (.unlock ⟨-eInval, []⟩, fPos)
  | .commandOffset cmdIdx idx writeCmdOffset =>
      if idx ≠ cmdIdx then
        some (.commandOffset cmdIdx ((idx + 1) % maxWriteOperationsSupported)
          (toI32 (toU64 (writeCmdOffset + (buffer.at idx).size))), fPos)
      else
        some (.seek (toI32 (toU32 (writeCmdOffset + seekto.writeCmdOffset.toNat))), fPos)
  | .seek writeCmdOffset => some (.unlock ⟨0, []⟩, toI64 (fPos + writeCmdOffset))
  | _ => none

/-- A statement under the lock: where the call is then, the driver, and the
file's position. -/
def Op.statement (op : Op) (s : DriverState) (fPos : Int) (pc : CallPc) :
    Option (CallPc × DriverState × Int) :=
  match op with
  | .open _ => none
  | .write c => do
      let (pc, s) ← writeStatement c.buf c.env s pc
      return (pc, s, fPos)
  | .read c => do
      let (pc, fPos) ← readStatement c.count c.env s fPos pc
      return (pc, s, fPos)
  | .llseek _ _ _ _ => do
      let pc ← llseekStatement s.aesdDevice.circularBuffer pc
      return (pc, s, fPos)
  | .ioctl _ _ seekto _ => do
      let (pc, fPos) ← ioctlStatement s.aesdDevice.circularBuffer seekto fPos pc
      return (pc, s, fPos)

/-- What a call does without the lock. -/
inductive Opening where
  /-- It takes effect at once, and moves the file. -/
  | effect (r : Reply) (fPos : Int)
  /-- It waits for the lock, and goes on from `pc`. -/
  | lock (interrupted : Bool) (pc : CallPc)

/-- A call up to its lock. -/
def Op.opening (fPos : Int) : Op → Opening
  | .open _ => .effect ⟨0, []⟩ 0
  | .write c => .lock c.env.interrupted .krealloc
  | .read c => .lock c.env.interrupted .find
  | .llseek _ off whence interrupted =>
      if whence = 0 then
        let (ret, pos) := aesdLlseekTo fPos (toI64 off)
        .effect ⟨ret, []⟩ pos
      else if whence = 1 then
        let (ret, pos) := aesdLlseekTo fPos (toI64 (fPos + off))
        .effect ⟨ret, []⟩ pos
      else if whence = 2 then
        .lock interrupted .measure
      else .effect ⟨-eInval, []⟩ fPos
  | .ioctl _ cmd _ env =>
      if cmd = aesdcharIocseekto then
        if env.fault then .effect ⟨-eFault, []⟩ fPos else .lock env.interrupted .check
      else .effect ⟨-eInval, []⟩ fPos

/-- `newpos` of `SEEK_END`, from the size of the file. -/
def Op.newpos (fileSize : Int) : Op → Int
  | .llseek _ off _ _ => toI64 (toI32 (fileSize - 1) + off)
  | _ => 0

/-! ## Calls of all files -/

/-- What a file is doing. -/
inductive Task where
  | idle
  | call (op : Op) (pc : CallPc)

/-- The driver with its lock, and the call of every file. `lock` is the file whose
call has it. -/
structure Shared where
  driver : DriverState
  lock : Option Nat
  fPos : Nat → Int
  task : Nat → Task

/-- The device after `aesd_init_module`, with no call on it. -/
def Shared.init (limit : Nat) (h : limit ≤ 2 ^ 56) (fPos : Nat → Int) : Shared :=
  ⟨aesdInitModule limit h, none, fPos, fun _ => .idle⟩

/-- A file makes a call, or its call goes on by a statement. -/
inductive SharedAct where
  | call (op : Op)
  | go (file : Nat)

/-- A call comes in, takes effect on the device (at the `mutex_unlock`, or where it
is decided without the lock), and returns. -/
inductive CallEvent where
  | called (op : Op)
  | effect (op : Op) (r : Reply)
  | returned (file : Nat) (r : Reply)

/-- The call of `file` goes on from `pc`. -/
def Shared.goTo (s : Shared) (file : Nat) (op : Op) (pc : CallPc) : Shared :=
  { s with task := Function.update s.task file (.call op pc) }

/-- The call of `file` takes effect. -/
def Shared.effect (s : Shared) (file : Nat) (op : Op) (r : Reply) (fPos : Int)
    (pc : CallPc) : Option CallEvent × Shared :=
  (some (.effect op r), Shared.goTo { s with fPos := Function.update s.fPos file fPos } file op pc)

/-- A call before its lock. It does not get past the lock while another has it. -/
def Shared.startCall (s : Shared) (file : Nat) (op : Op) : Option (Option CallEvent × Shared) :=
  match op.opening (s.fPos file) with
  | .effect r fPos => some (s.effect file op r fPos (.returns r))
  | .lock true _ =>
      some (s.effect file op ⟨-eRestartSys, []⟩ (s.fPos file) (.returns ⟨-eRestartSys, []⟩))
  | .lock false pc =>
      if s.lock = none then some (none, Shared.goTo { s with lock := some file } file op pc)
      else none

/-- A statement of the call of `file`. -/
def Shared.go (s : Shared) (file : Nat) : Option (Option CallEvent × Shared) :=
  match s.task file with
  | .idle => none
  | .call op pc =>
      match pc with
      | .start => s.startCall file op
      | .unlock r =>
          some (Shared.effect { s with lock := none } file op r (s.fPos file) (.returns r))
      | .unlockSize fileSize =>
          let newpos := op.newpos fileSize
          let r : Reply := ⟨(aesdLlseekTo (s.fPos file) newpos).1, []⟩
          -- `f_pos` is set after the unlock
          some (Shared.effect { s with lock := none } file op r (s.fPos file) (.setPos newpos))
      | .setPos newpos =>
          let (ret, fPos) := aesdLlseekTo (s.fPos file) newpos
          some (none, Shared.goTo { s with fPos := Function.update s.fPos file fPos } file op
            (.returns ⟨ret, []⟩))
      | .returns r =>
          some (some (.returned file r), { s with task := Function.update s.task file .idle })
      | pc => do
          let (pc, driver, fPos) ← op.statement s.driver (s.fPos file) pc
          return (none, Shared.goTo { s with
            driver, fPos := Function.update s.fPos file fPos } file op pc)

/-- One statement of one call, or a new call. -/
def Shared.step (s : Shared) : SharedAct → Option (Option CallEvent × Shared)
  | .call op =>
      match s.task op.file with
      | .idle => some (some (.called op), s.goTo op.file op .start)
      | .call _ _ => none
  | .go file => s.go file

end Aesd.Driver
