import Aesd.Driver.CircularBuffer

/-!
# The character device

`aesd-char-driver/main.c`: the file operations on the one `aesd_device`,
each under its mutex, so that a call is one step. What the kernel decides
during a call (a signal at the lock, memory, a fault in user memory) is an
argument of it; `none` is undefined behaviour.

`Device` adds the `f_pos` of every open file, and `Device.step` is one call
on one of them.
-/

namespace Aesd.Driver

open Aesd.Lib

/-! ## Constants and data -/

/-- `ERESTARTSYS`. -/
abbrev eRestartSys : Int := 512

/-- `ENOMEM`. -/
abbrev eNoMem : Int := 12

/-- `EFAULT`. -/
abbrev eFault : Int := 14

/-- `EINVAL`. -/
abbrev eInval : Int := 22

/-- `'\n'`. -/
abbrev newline : UInt8 := 10

/-- `struct aesd_dev`, less its mutex and `struct cdev`. -/
structure AesdDev where
  pWriteBuffer : Ptr
  writeBufferSize : Nat
  circularBuffer : AesdCircularBuffer
  deriving DecidableEq, Repr

/-- The kernel heap and the global `aesd_device`. -/
structure DriverState where
  heap : Heap
  aesdDevice : AesdDev

/-- `struct aesd_seekto`; both fields are `uint32_t`. -/
structure AesdSeekto where
  writeCmd : UInt32
  writeCmdOffset : UInt32
  deriving DecidableEq, Repr

/-- `_IOWR(type, nr, size)` of `asm-generic/ioctl.h`. -/
def iowr (type nr size : Nat) : Nat :=
  3 * 2 ^ 30 + size * 2 ^ 16 + type * 2 ^ 8 + nr

/-- `AESDCHAR_IOCSEEKTO`. -/
def aesdcharIocseekto : Nat := iowr 0x16 1 8

/-- What a write is handed: `vfs_write` caps `count` at `MAX_RW_COUNT`, which
is below `2 ^ 31`. -/
structure UserBuf where
  bytes : List UInt8
  lt : bytes.length < 2 ^ 31

/-- The kernel during `aesd_write`: a signal at the lock, the allocator, and
what a faulting `copy_from_user` leaves behind. -/
structure WriteEnv where
  interrupted : Bool
  kalloc : Kalloc
  fault : Option (Nat → UInt8)

/-- The kernel during the other calls: a signal at the lock and a fault in
user memory. -/
structure CallEnv where
  interrupted : Bool
  fault : Bool

/-- No signal and no fault. -/
def CallEnv.quiet : CallEnv := ⟨false, false⟩

/-! ## The file operations -/

/-- `aesd_init_module`, once the device number and the cdev are registered. -/
def aesdInitModule (limit : Nat) (h : limit ≤ 2 ^ 56) : DriverState where
  heap := Heap.empty limit h
  aesdDevice := ⟨.null, 0, aesdCircularBufferInit⟩

/-- `aesd_write` from the newline on: the oldest entry of a full ring is
freed, the write buffer becomes the newest entry. -/
def aesdWriteCommit (heap : Heap) (dev : AesdDev) : Option DriverState := do
  let entry : AesdBufferEntry := ⟨dev.pWriteBuffer, dev.writeBufferSize⟩
  let heap ←
    if dev.circularBuffer.full then
      kfree heap (dev.circularBuffer.at dev.circularBuffer.outOffs).buffptr
    else some heap
  return {
    heap
    aesdDevice := {
      pWriteBuffer := .null
      writeBufferSize := 0
      circularBuffer := aesdCircularBufferAddEntry dev.circularBuffer entry } }

/-- `aesd_write`: the return value and the new state. -/
def aesdWrite (s : DriverState) (buf : UserBuf) (env : WriteEnv) :
    Option (Int × DriverState) :=
  if env.interrupted then some (-eRestartSys, s)
  else do
    let dev := s.aesdDevice
    let count := buf.bytes.length
    let (heap, pTmp) ← krealloc s.heap dev.pWriteBuffer
      (toU64 (count + dev.writeBufferSize)) env.kalloc
    if pTmp = .null then
      let heap ← kfree heap dev.pWriteBuffer
      return (-eNoMem, ⟨heap, dev⟩)
    else
      let dev := { dev with pWriteBuffer := pTmp }
      let (heap, uncopied) ← copyFromUser heap dev.pWriteBuffer
        dev.writeBufferSize buf.bytes env.fault
      if uncopied then
        return (-eFault, ⟨heap, dev⟩)
      else
        let dev := { dev with
          writeBufferSize := toU64 (dev.writeBufferSize + count) }
        let bContainsNewline ← memchr heap dev.pWriteBuffer newline
          dev.writeBufferSize
        if bContainsNewline then
          let s ← aesdWriteCommit heap dev
          return (toI64 count, s)
        else
          return (toI64 count, ⟨heap, dev⟩)

/-- What `aesd_read` copies once the search succeeded. -/
structure ReadPlan where
  pEntry : AesdBufferEntry
  offset : Nat
  bytesToCopy : Nat
  deriving DecidableEq, Repr

/-- `aesd_read` up to the copy; `none` inside when the search returned
`NULL`. -/
def aesdReadPlan (dev : AesdDev) (fPos : Int) (count : Nat) :
    Option (Option ReadPlan) := do
  let (found, offset) ← aesdCircularBufferFindEntryOffsetForFpos
    dev.circularBuffer (toU64 fPos) 0
  match found with
  | none => return none
  | some i =>
      let pEntry := dev.circularBuffer.at i
      let bytesAvailable := toU64 (pEntry.size - offset)
      let bytesToCopy := if bytesAvailable > count then count else bytesAvailable
      return some ⟨pEntry, offset, bytesToCopy⟩

/-- `aesd_read`: the return value, the bytes delivered to the user's buffer
and the new `*f_pos`. -/
def aesdRead (s : DriverState) (fPos : Int) (count : Nat) (env : CallEnv) :
    Option (Int × List UInt8 × Int) :=
  if env.interrupted then some (-eRestartSys, [], fPos)
  else do
    match ← aesdReadPlan s.aesdDevice fPos count with
    | none => return (0, [], fPos)
    | some plan =>
        match ← copyToUser s.heap plan.pEntry.buffptr plan.offset
          plan.bytesToCopy env.fault with
        | none => return (0, [], fPos)
        | some bytes =>
            return (toI64 plan.bytesToCopy, bytes, toI64 (fPos + plan.bytesToCopy))

/-- The loops of `aesd_llseek` and `aesd_ioctl` over the ring: from `idx` up
to and without `stop`, the sizes are added to an `int`. -/
def sumSizes (buffer : AesdCircularBuffer) (stop : Nat) :
    Nat → Nat → Int → Option Int
  | 0, _, _ => none
  | fuel + 1, idx, sum =>
      if idx ≠ stop then
        sumSizes buffer stop fuel ((idx + 1) % maxWriteOperationsSupported)
          (toI32 (toU64 (sum + (buffer.at idx).size)))
      else some sum

/-- `aesd_llseek` from the computed position on: the return value and the new
`f_pos`. -/
def aesdLlseekTo (fPos newpos : Int) : Int × Int :=
  if newpos < 0 then (-eInval, fPos) else (newpos, newpos)

/-- `aesd_llseek`; `0`, `1` and `2` are `SEEK_SET`, `SEEK_CUR` and
`SEEK_END`. -/
def aesdLlseek (s : DriverState) (fPos off : Int) (whence : Int)
    (interrupted : Bool) : Option (Int × Int) :=
  let buffer := s.aesdDevice.circularBuffer
  if whence = 0 then
    some (aesdLlseekTo fPos (toI64 off))
  else if whence = 1 then
    some (aesdLlseekTo fPos (toI64 (fPos + off)))
  else if whence = 2 then
    if interrupted then some (-eRestartSys, fPos)
    else do
      let fileSize ← sumSizes buffer buffer.inOffs maxWriteOperationsSupported
        buffer.outOffs 0
      return aesdLlseekTo fPos (toI64 (toI32 (fileSize - 1) + off))
  else
    some (-eInval, fPos)

/-- `aesd_ioctl`; `seekto` is what `arg` points to. -/
def aesdIoctl (s : DriverState) (fPos : Int) (cmd : Nat) (seekto : AesdSeekto)
    (env : CallEnv) : Option (Int × Int) :=
  let buffer := s.aesdDevice.circularBuffer
  if cmd = aesdcharIocseekto then
    if env.fault then some (-eFault, fPos)
    else if env.interrupted then some (-eRestartSys, fPos)
    else if seekto.writeCmd.toNat > maxWriteOperationsSupported then
      some (-eInval, fPos)
    else
      let cmdIdx := toU32 (seekto.writeCmd.toNat + buffer.outOffs)
        % maxWriteOperationsSupported
      let cmdSize := toI32 (buffer.at cmdIdx).size
      -- `uint32_t < int` compares as unsigned
      if seekto.writeCmdOffset.toNat < toU32 cmdSize then do
        let writeCmdOffset ← sumSizes buffer cmdIdx maxWriteOperationsSupported
          buffer.outOffs 0
        let writeCmdOffset :=
          toI32 (toU32 (writeCmdOffset + seekto.writeCmdOffset.toNat))
        return (0, toI64 (fPos + writeCmdOffset))
      else
        some (-eInval, fPos)
  else
    some (-eInval, fPos)

/-- `aesd_cleanup_module`: `AESD_CIRCULAR_BUFFER_FOREACH` frees the buffer of
each of the ten slots. -/
def aesdCleanupModule (s : DriverState) : Option Heap :=
  (List.range maxWriteOperationsSupported).foldlM
    (fun heap index => kfree heap (s.aesdDevice.circularBuffer.at index).buffptr)
    s.heap

/-! ## Calls on open files -/

/-- The driver and the `f_pos` of every open file. -/
structure Device where
  driver : DriverState
  fPos : Nat → Int

/-- `write(file, buf)`. -/
structure WriteCall where
  file : Nat
  buf : UserBuf
  env : WriteEnv

/-- `read(file, count)`. -/
structure ReadCall where
  file : Nat
  count : Nat
  env : CallEnv

/-- A call on the device. -/
inductive Op where
  | open (file : Nat)
  | write (c : WriteCall)
  | read (c : ReadCall)
  | llseek (file : Nat) (off whence : Int) (interrupted : Bool)
  | ioctl (file : Nat) (cmd : Nat) (seekto : AesdSeekto) (env : CallEnv)

/-- What the caller sees: the return value and the bytes delivered. -/
structure Reply where
  ret : Int
  data : List UInt8
  deriving DecidableEq, Repr

/-- The device after `aesd_init_module`. -/
def Device.init (limit : Nat) (h : limit ≤ 2 ^ 56) (fPos : Nat → Int) : Device :=
  ⟨aesdInitModule limit h, fPos⟩

/-- One call. A freshly opened file is at position 0. -/
def Device.step (d : Device) : Op → Option (Reply × Device)
  | .open file => some (⟨0, []⟩, { d with fPos := Function.update d.fPos file 0 })
  | .write c => do
      let (ret, driver) ← aesdWrite d.driver c.buf c.env
      return (⟨ret, []⟩, { d with driver })
  | .read c => do
      let (ret, data, pos) ← aesdRead d.driver (d.fPos c.file) c.count c.env
      return (⟨ret, data⟩, { d with fPos := Function.update d.fPos c.file pos })
  | .llseek file off whence interrupted => do
      let (ret, pos) ← aesdLlseek d.driver (d.fPos file) off whence interrupted
      return (⟨ret, []⟩, { d with fPos := Function.update d.fPos file pos })
  | .ioctl file cmd seekto env => do
      let (ret, pos) ← aesdIoctl d.driver (d.fPos file) cmd seekto env
      return (⟨ret, []⟩, { d with fPos := Function.update d.fPos file pos })

end Aesd.Driver
