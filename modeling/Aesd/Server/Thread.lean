import Aesd.Driver.CharDevice
import Aesd.Lib.CString
import Aesd.Lib.Scan

/-!
# The service thread

`service_thread` of `server/aesdsocket.c`, with `writeback` and
`open_socket_data_file` inlined, as a machine: between two library calls the
thread runs to the next one, so its state is the call it waits for (`Pc`) and
its locals. `Thread.step` takes the call's result and gives the call itself
as output, so a run's outputs are the calls the thread made.

`none` is undefined behaviour (a string that does not fit, a signed overflow)
or a result the call cannot have. Messages to `syslog` are left out.
-/

namespace Aesd.Server

open Aesd.Lib Aesd.Driver

/-- `RECV_BUF_LEN`. -/
abbrev recvBufLen : Nat := 100

/-- `AESDCHAR_IOCSEEKTO_CMD_STR`. -/
def aesdcharIocseektoCmdStr : List UInt8 :=
  ['A', 'E', 'S', 'D', 'C', 'H', 'A', 'R', '_', 'I', 'O', 'C', 'S', 'E', 'E', 'K',
    'T', 'O'].map fun c => UInt8.ofNat c.toNat

/-- `':'` and `','`. -/
abbrev colon : UInt8 := 58

@[inherit_doc colon] abbrev comma : UInt8 := 44

/-- `AESDCHAR_IOCSEEKTO_FMT_STR`, `"AESDCHAR_IOCSEEKTO:%u,%u"`. -/
def aesdcharIocseektoFmtStr : List Directive :=
  (aesdcharIocseektoCmdStr ++ [colon]).map .lit ++ [.u, .lit comma, .u]

/-- The `struct aesd_seekto` on the thread's stack. A field that `sscanf` did
not assign is `none`: its value is indeterminate. -/
structure Seekto where
  writeCmd : Option UInt32
  writeCmdOffset : Option UInt32
  deriving DecidableEq, Repr

/-- `sscanf(text, AESDCHAR_IOCSEEKTO_FMT_STR, ...)`. -/
def scanSeekto (text : List UInt8) : Seekto :=
  let numbers := sscanf aesdcharIocseektoFmtStr text
  ⟨numbers[0]?, numbers[1]?⟩

/-! ## Calls and results -/

/-- A library call. Streams are named by numbers; `none` is `NULL`. -/
inductive Call where
  | inetNtop
  | recv (len : Nat)
  | realloc (size : Nat)
  | pthreadMutexLock
  | fopen
  | fprintf (file : Option Nat) (text : List UInt8)
  | fileno (file : Option Nat)
  | ioctl (fd : Int) (cmd : Nat) (seekto : Seekto)
  | getline (file : Option Nat)
  | send (bytes : List UInt8)
  | fclose (file : Option Nat)
  | pthreadMutexUnlock
  deriving DecidableEq, Repr

/-- The result of a call: an `int`, a null or non-null pointer, bytes received
or read, new memory (with what it holds past the old bytes), a stream. -/
inductive Resp where
  | int (n : Int)
  | null
  | nonNull
  | bytes (bs : List UInt8)
  | memory (fill : Nat → UInt8)
  | stream (file : Nat)

/-- The call the thread waits for, with the locals of the block it is in. -/
inductive Pc where
  | inetNtop
  | recv
  | realloc (bContainsNewline bIsFirstMalloc : Bool)
  | mutexLock
  | fopen
  | fprintf (text : List UInt8)
  | fileno (seekto : Seekto)
  | ioctl (fd : Int) (seekto : Seekto)
  | getline
  | send (line : List UInt8) (totalBytesWritten : Nat)
  | fclose
  | mutexUnlock
  | done
  deriving DecidableEq, Repr

/-- The thread's locals. The two `int`s only ever grow from 0. -/
structure Thread where
  pc : Pc
  pBuffer : List UInt8
  mallocBufSize : Nat
  byteStringLen : Nat
  pMallocBuf : Option (List UInt8)
  phSocketDataFile : Option Nat
  deriving DecidableEq, Repr

/-- The thread at its first call. -/
def Thread.init : Thread where
  pc := .inetNtop
  pBuffer := List.replicate recvBufLen 0
  mallocBufSize := 0
  byteStringLen := 0
  pMallocBuf := none
  phSocketDataFile := none

/-- The call of a `Pc`. -/
def Thread.call (t : Thread) : Option Call :=
  match t.pc with
  | .inetNtop => some .inetNtop
  | .recv => some (.recv (recvBufLen - 1))
  | .realloc _ _ => some (.realloc t.mallocBufSize)
  | .mutexLock => some .pthreadMutexLock
  | .fopen => some .fopen
  | .fprintf text => some (.fprintf t.phSocketDataFile text)
  | .fileno _ => some (.fileno t.phSocketDataFile)
  | .ioctl fd seekto => some (.ioctl fd aesdcharIocseekto seekto)
  | .getline => some (.getline t.phSocketDataFile)
  | .send line total => some (.send (line.drop total))
  | .fclose => some (.fclose t.phSocketDataFile)
  | .mutexUnlock => some .pthreadMutexUnlock
  | .done => none

/-! ## From one call to the next -/

/-- `x += y` of `int`s that are not negative. -/
def addInt (x y : Nat) : Option Nat :=
  if x + y < 2 ^ 31 then some (x + y) else none

/-- The end of the thread: `free(p_malloc_buf)`. -/
def Thread.finish (t : Thread) : Thread :=
  { t with pc := .done, pMallocBuf := none }

/-- After `recv` returned the bytes `chunk`, up to `realloc`. -/
def Thread.received (t : Thread) (chunk : List UInt8) : Option Thread := do
  -- `recv` fills the buffer, then `p_buffer[bytes_recv] = '\0'`
  let pBuffer := overwrite t.pBuffer 0 (chunk ++ [0])
  let bContainsNewline ← strchr pBuffer newline
  let bIsFirstMalloc := t.mallocBufSize == 0
  let byteStringLen ← addInt t.byteStringLen chunk.length
  let mallocBufSize ← addInt t.mallocBufSize (chunk.length + 1)
  return { t with
    pc := .realloc bContainsNewline bIsFirstMalloc
    pBuffer, byteStringLen, mallocBufSize }

/-- After `realloc` returned a block, up to the next `recv` or the commit. -/
def Thread.reallocated (t : Thread) (bContainsNewline bIsFirstMalloc : Bool)
    (fill : Nat → UInt8) : Option Thread := do
  let pTmp := resize (t.pMallocBuf.getD []) t.mallocBufSize fill
  let pMallocBuf ←
    if bIsFirstMalloc then strcpy pTmp t.pBuffer else strcat pTmp t.pBuffer
  return { t with
    pc := if bContainsNewline then .mutexLock else .recv
    pMallocBuf := some pMallocBuf }

/-- After `open_socket_data_file`, which sets the stream also when it fails. -/
def Thread.opened (t : Thread) (file : Option Nat) : Option Thread := do
  let pMallocBuf ← t.pMallocBuf
  let bContainsAesdCharCmd ← strstr pMallocBuf aesdcharIocseektoCmdStr
  let text ← cstr pMallocBuf
  return { t with
    pc := if bContainsAesdCharCmd then .fileno (scanSeekto text) else .fprintf text
    phSocketDataFile := file }

/-- The head of the sending loop of `writeback`. -/
def Thread.sendLoop (t : Thread) (line : List UInt8) (totalBytesWritten : Nat) : Thread :=
  { t with pc :=
      if totalBytesWritten < line.length then .send line totalBytesWritten else .getline }

/-- The thread goes on with the result of its call. The results of the lock,
of `fopen`, `fprintf`, `fileno`, `ioctl` and of the unlock are only logged. -/
def Thread.resume (t : Thread) (r : Resp) : Option Thread :=
  match t.pc, r with
  | .inetNtop, .null => some t.finish
  | .inetNtop, .nonNull => some { t with pc := .recv }
  | .recv, .int n => if n = -1 ∨ n = 0 then some t.finish else none
  | .recv, .bytes chunk =>
      if 0 < chunk.length ∧ chunk.length ≤ recvBufLen - 1 then t.received chunk else none
  | .realloc _ _, .null => some t.finish
  | .realloc bContainsNewline bIsFirstMalloc, .memory fill =>
      t.reallocated bContainsNewline bIsFirstMalloc fill
  | .mutexLock, .int _ => some { t with pc := .fopen }
  | .fopen, .null => t.opened none
  | .fopen, .stream file => t.opened (some file)
  | .fprintf _, .int _ => some { t with pc := .getline }
  | .fileno seekto, .int fd => some { t with pc := .ioctl fd seekto }
  | .ioctl _ _, .int _ => some { t with pc := .getline }
  | .getline, .int n => if n = -1 then some { t with pc := .fclose } else none
  | .getline, .bytes line => some (t.sendLoop line 0)
  | .send line total, .int n =>
      -- a failed send ends both loops
      if n = -1 then some { t with pc := .fclose }
      -- `send` takes no more than it is offered; the counter is an `int`
      else if 0 ≤ n ∧ total + n ≤ line.length ∧ total + n < 2 ^ 31 then
        some (t.sendLoop line (total + n.toNat))
      else none
  | .fclose, .int _ => some { t with pc := .mutexUnlock }
  | .mutexUnlock, .int _ => some { t with pc := .recv }
  | _, _ => none

/-- One call: its result is the input, the call itself the output. -/
def Thread.step (t : Thread) (r : Resp) : Option (Call × Thread) := do
  let call ← t.call
  let t' ← t.resume r
  return (call, t')

/-! ## What a step can do -/

/-- A step of the thread, by the call it was at and the call's result. -/
inductive ThreadStep (t : Thread) : Call → Resp → Thread → Prop where
  | noAddress (hpc : t.pc = .inetNtop) : ThreadStep t .inetNtop .null t.finish
  | address (hpc : t.pc = .inetNtop) :
      ThreadStep t .inetNtop .nonNull { t with pc := .recv }
  | ended {n : Int} (hpc : t.pc = .recv) (hn : n = -1 ∨ n = 0) :
      ThreadStep t (.recv (recvBufLen - 1)) (.int n) t.finish
  | received {chunk : List UInt8} {t' : Thread} (hpc : t.pc = .recv)
      (hlen : 0 < chunk.length ∧ chunk.length ≤ recvBufLen - 1)
      (hr : t.received chunk = some t') :
      ThreadStep t (.recv (recvBufLen - 1)) (.bytes chunk) t'
  | noMemory {bContainsNewline bIsFirstMalloc : Bool}
      (hpc : t.pc = .realloc bContainsNewline bIsFirstMalloc) :
      ThreadStep t (.realloc t.mallocBufSize) .null t.finish
  | reallocated {bContainsNewline bIsFirstMalloc : Bool} {fill : Nat → UInt8} {t' : Thread}
      (hpc : t.pc = .realloc bContainsNewline bIsFirstMalloc)
      (hr : t.reallocated bContainsNewline bIsFirstMalloc fill = some t') :
      ThreadStep t (.realloc t.mallocBufSize) (.memory fill) t'
  | locked {n : Int} (hpc : t.pc = .mutexLock) :
      ThreadStep t .pthreadMutexLock (.int n) { t with pc := .fopen }
  | notOpened {t' : Thread} (hpc : t.pc = .fopen) (hr : t.opened none = some t') :
      ThreadStep t .fopen .null t'
  | opened {file : Nat} {t' : Thread} (hpc : t.pc = .fopen)
      (hr : t.opened (some file) = some t') : ThreadStep t .fopen (.stream file) t'
  | printed {text : List UInt8} {n : Int} (hpc : t.pc = .fprintf text) :
      ThreadStep t (.fprintf t.phSocketDataFile text) (.int n) { t with pc := .getline }
  | number {seekto : Seekto} {fd : Int} (hpc : t.pc = .fileno seekto) :
      ThreadStep t (.fileno t.phSocketDataFile) (.int fd) { t with pc := .ioctl fd seekto }
  | sought {fd : Int} {seekto : Seekto} {n : Int} (hpc : t.pc = .ioctl fd seekto) :
      ThreadStep t (.ioctl fd aesdcharIocseekto seekto) (.int n) { t with pc := .getline }
  | endOfFile (hpc : t.pc = .getline) :
      ThreadStep t (.getline t.phSocketDataFile) (.int (-1)) { t with pc := .fclose }
  | line {line : List UInt8} (hpc : t.pc = .getline) :
      ThreadStep t (.getline t.phSocketDataFile) (.bytes line) (t.sendLoop line 0)
  | notSent {line : List UInt8} {total : Nat} (hpc : t.pc = .send line total) :
      ThreadStep t (.send (line.drop total)) (.int (-1)) { t with pc := .fclose }
  | sent {line : List UInt8} {total : Nat} {n : Int} (hpc : t.pc = .send line total)
      (hn : 0 ≤ n ∧ total + n ≤ line.length ∧ total + n < 2 ^ 31) :
      ThreadStep t (.send (line.drop total)) (.int n) (t.sendLoop line (total + n.toNat))
  | fileClosed {n : Int} (hpc : t.pc = .fclose) :
      ThreadStep t (.fclose t.phSocketDataFile) (.int n) { t with pc := .mutexUnlock }
  | unlocked {n : Int} (hpc : t.pc = .mutexUnlock) :
      ThreadStep t .pthreadMutexUnlock (.int n) { t with pc := .recv }

section
variable {t t' : Thread} {call : Call} {r : Resp}

/-- A step gives the call of the state and goes on with its result. -/
theorem Thread.step_eq_some : t.step r = some (call, t') ↔
    t.call = some call ∧ t.resume r = some t' := by
  simp only [Thread.step, Option.bind_eq_bind, Option.bind_eq_some_iff]
  constructor
  · rintro ⟨c, hc, u, hu, h⟩
    cases h
    exact ⟨hc, hu⟩
  · rintro ⟨hc, hu⟩
    exact ⟨call, hc, t', hu, rfl⟩

/-- **A step of the thread** is one of these. -/
theorem Thread.step_cases (hs : t.step r = some (call, t')) : ThreadStep t call r t' := by
  obtain ⟨hcall, hres⟩ := Thread.step_eq_some.mp hs
  unfold Thread.call at hcall
  unfold Thread.resume at hres
  cases hpc : t.pc <;> rw [hpc] at hcall hres <;> cases r
  case inetNtop.null =>
    cases hcall
    cases hres
    exact .noAddress hpc
  case inetNtop.nonNull =>
    cases hcall
    cases hres
    exact .address hpc
  case recv.int n =>
    cases hcall
    dsimp only at hres
    split at hres <;> cases hres
    rename_i hn
    exact .ended hpc hn
  case recv.bytes chunk =>
    cases hcall
    dsimp only at hres
    split at hres
    · rename_i hlen
      exact .received hpc hlen hres
    · cases hres
  case realloc.null =>
    cases hcall
    cases hres
    exact .noMemory hpc
  case realloc.memory fill =>
    cases hcall
    exact .reallocated hpc hres
  case mutexLock.int n =>
    cases hcall
    cases hres
    exact .locked hpc
  case fopen.null =>
    cases hcall
    exact .notOpened hpc hres
  case fopen.stream file =>
    cases hcall
    exact .opened hpc hres
  case fprintf.int text n =>
    cases hcall
    cases hres
    exact .printed hpc
  case fileno.int seekto fd =>
    cases hcall
    cases hres
    exact .number hpc
  case ioctl.int fd seekto n =>
    cases hcall
    cases hres
    exact .sought hpc
  case getline.int n =>
    cases hcall
    dsimp only at hres
    split at hres <;> cases hres
    rename_i hn
    subst hn
    exact .endOfFile hpc
  case getline.bytes line =>
    cases hcall
    cases hres
    exact .line hpc
  case send.int line total n =>
    cases hcall
    dsimp only at hres
    split at hres
    · rename_i hn
      subst hn
      cases hres
      exact .notSent hpc
    · split at hres <;> cases hres
      rename_i hn
      exact .sent hpc hn
  case fclose.int n =>
    cases hcall
    cases hres
    exact .fileClosed hpc
  case mutexUnlock.int n =>
    cases hcall
    cases hres
    exact .unlocked hpc
  all_goals cases hres

theorem ThreadStep.step (hs : ThreadStep t call r t') : t.step r = some (call, t') := by
  refine Thread.step_eq_some.mpr ?_
  unfold Thread.call Thread.resume
  cases hs with
  | ended hpc hn =>
      rw [hpc]
      exact ⟨rfl, if_pos hn⟩
  | received hpc hlen hr =>
      rw [hpc]
      exact ⟨rfl, (if_pos hlen).trans hr⟩
  | reallocated hpc hr | notOpened hpc hr | opened hpc hr =>
      rw [hpc]
      exact ⟨rfl, hr⟩
  | sent hpc hn =>
      rw [hpc]
      refine ⟨rfl, ?_⟩
      dsimp only
      rw [if_neg (by omega), if_pos hn]
  | noAddress hpc | address hpc | noMemory hpc | locked hpc | printed hpc | number hpc
  | sought hpc | endOfFile hpc | line hpc | notSent hpc | fileClosed hpc | unlocked hpc =>
      rw [hpc]
      exact ⟨rfl, rfl⟩

end

end Aesd.Server
