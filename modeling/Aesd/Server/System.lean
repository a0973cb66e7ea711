import Aesd.Server.Thread
import Aesd.Lib.Machine
import Mathlib.Logic.Function.Basic

/-!
# The server and the device

The service threads of any number of connections, the mutex they share, their
clients, the streams they open on the device, and the driver. One step of the
system is the return of one thread's pending call, or a transfer between a
stream and the driver; every interleaving of these is a run. The threads' calls
succeed, the `ioctl` apart, whose result the thread does not use: there is no
step in which a lock, an allocation, an `fopen` or a `send` fails. A call that
cannot return yet has no step.

The C library hands what was printed to the driver in order, in any number of
writes, before `getline` first reads; it reads from the file's position until
a read returns 0.
-/

namespace Aesd.Server

open Aesd.Lib Aesd.Driver

/-- An open stream on the device: the position of its file, the bytes printed
and not yet written, the bytes read and not yet returned, and whether a read
has returned 0. -/
structure Stream where
  fPos : Int
  out : List UInt8
  inp : List UInt8
  eof : Bool
  deriving DecidableEq, Repr

/-- `fopen(SOCKET_DATA_FILE_PATHNAME, "a+")`. -/
def Stream.fresh : Stream := ⟨0, [], [], false⟩

/-- The system. `inbox` is what each client has yet to send, `outbox` what it
was sent. -/
structure World (ι : Type) where
  threads : ι → Thread
  inbox : ι → List (List UInt8)
  outbox : ι → List UInt8
  mutex : Option ι
  driver : DriverState
  streams : Nat → Option Stream
  nextFile : Nat

/-- What happens: the pending call of thread `i` returns (with `n` bytes
sent, with `fill` in memory that nothing was stored in), or the stream of
thread `i` writes `n` bytes, or reads at most `count`. -/
inductive Act (ι : Type) where
  | call (i : ι) (n : Nat) (fill : Nat → UInt8)
  | flush (i : ι) (n : Nat) (env : WriteEnv)
  | refill (i : ι) (count : Nat)

/-- The `uint32_t` at `i`, its least byte first. -/
def uint32At (fill : Nat → UInt8) (i : Nat) : UInt32 :=
  (fill i).toUInt32 + (fill (i + 1)).toUInt32 <<< 8 + (fill (i + 2)).toUInt32 <<< 16
    + (fill (i + 3)).toUInt32 <<< 24

/-- What `ioctl` finds in the structure, on a stack that held `fill`. -/
def Seekto.onStack (seekto : Seekto) (fill : Nat → UInt8) : AesdSeekto where
  writeCmd := seekto.writeCmd.getD (uint32At fill 0)
  writeCmdOffset := seekto.writeCmdOffset.getD (uint32At fill 4)

/-- `getline`, once all is written: a line, or what is left at the end of the
file. -/
def Stream.getline (s : Stream) : Option (Resp × Stream) :=
  if s.out ≠ [] then none
  else if newline ∈ s.inp then
    let n := s.inp.idxOf newline + 1
    some (.bytes (s.inp.take n), { s with inp := s.inp.drop n })
  else if s.eof then
    if s.inp = [] then some (.int (-1), s)
    else some (.bytes s.inp, { s with inp := [] })
  else none

section
variable {ι : Type} [DecidableEq ι]

/-- The connections at the start, with what each client will send. -/
def World.init (driver : DriverState) (chunks : ι → List (List UInt8)) : World ι where
  threads := fun _ => .init
  inbox := chunks
  outbox := fun _ => []
  mutex := none
  driver
  streams := fun _ => none
  nextFile := 0

/-- A stream changes. -/
def World.setStream (w : World ι) (file : Nat) (s : Option Stream) : World ι :=
  { w with streams := Function.update w.streams file s }

/-- A thread goes on. -/
def World.setThread (w : World ι) (i : ι) (t : Thread) : World ι :=
  { w with threads := Function.update w.threads i t }

/-- The result of a call of thread `i`, and what it does outside the thread. -/
def World.answer (w : World ι) (i : ι) (n : Nat) (fill : Nat → UInt8) :
    Call → Option (Resp × World ι)
  | .inetNtop => some (.nonNull, w)
  | .recv _ =>
      match w.inbox i with
      | [] => some (.int 0, w)
      | chunk :: chunks =>
          some (.bytes chunk, { w with inbox := Function.update w.inbox i chunks })
  | .realloc _ => some (.memory fill, w)
  | .pthreadMutexLock =>
      match w.mutex with
      | none => some (.int 0, { w with mutex := some i })
      | some _ => none
  | .fopen =>
      some (.stream w.nextFile,
        { w.setStream w.nextFile (some .fresh) with nextFile := w.nextFile + 1 })
  | .fprintf file text => do
      let file ← file
      let s ← w.streams file
      return (.int text.length, w.setStream file (some { s with out := s.out ++ text }))
  | .fileno file => do
      let file ← file
      return (.int file, w)
  | .ioctl fd cmd seekto => do
      let s ← w.streams fd.toNat
      -- made whatever `sscanf` returned
      let (ret, fPos) ← aesdIoctl w.driver s.fPos cmd (seekto.onStack fill) .quiet
      return (.int (if ret < 0 then -1 else ret),
        w.setStream fd.toNat (some { s with fPos }))
  | .getline file => do
      let file ← file
      let s ← w.streams file
      let (r, s) ← s.getline
      return (r, w.setStream file (some s))
  | .send bytes =>
      if 0 < n ∧ n ≤ bytes.length then
        some (.int n, { w with
          outbox := Function.update w.outbox i (w.outbox i ++ bytes.take n) })
      else none
  | .fclose file => do
      let file ← file
      let s ← w.streams file
      if s.out = [] then some (.int 0, w.setStream file none) else none
  | .pthreadMutexUnlock => some (.int 0, { w with mutex := none })

/-- One step; the output is the call that returned, if one did. -/
def World.step (w : World ι) : Act ι → Option (Option (ι × Call) × World ι)
  | .call i n fill => do
      let call ← (w.threads i).call
      let (r, w) ← w.answer i n fill call
      let t ← (w.threads i).resume r
      return (some (i, call), w.setThread i t)
  | .flush i n env => do
      let file ← (w.threads i).phSocketDataFile
      let s ← w.streams file
      if h : (w.threads i).pc = .getline ∧ 0 < n ∧ n ≤ s.out.length ∧ n < 2 ^ 31 then
        let buf : UserBuf := ⟨s.out.take n, by
          have := List.length_take_le n s.out
          omega⟩
        let (ret, driver) ← aesdWrite w.driver buf env
        if ret = n then
          return (none, { w with driver }.setStream file (some { s with out := s.out.drop n }))
        else none
      else none
  | .refill i count => do
      let file ← (w.threads i).phSocketDataFile
      let s ← w.streams file
      if (w.threads i).pc = .getline ∧ s.out = [] ∧ newline ∉ s.inp ∧ s.eof = false ∧
          0 < count then
        let (_, data, fPos) ← aesdRead w.driver s.fPos count .quiet
        return (none, w.setStream file
          (some { s with fPos, inp := s.inp ++ data, eof := decide (data = []) }))
      else none

/-- The threads that got the mutex, in order. -/
def lockOrder (outs : List (Option (ι × Call))) : List ι :=
  outs.filterMap fun
    | some (i, .pthreadMutexLock) => some i
    | _ => none

@[simp] theorem World.setThread_self (w : World ι) (i : ι) (t : Thread) :
    (w.setThread i t).threads i = t :=
  Function.update_self _ _ _

theorem World.setThread_of_ne (w : World ι) {i j : ι} (h : j ≠ i) (t : Thread) :
    (w.setThread i t).threads j = w.threads j :=
  Function.update_of_ne h _ _

end

end Aesd.Server
