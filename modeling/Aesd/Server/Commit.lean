import Aesd.Server.System
import Aesd.Server.Packets
import Aesd.Driver.Reads

/-!
# One commit

What a thread does to the device while it holds the mutex, in terms of the
log: the log after the commit of a packet, the position of the fresh file,
and the reply. Its stream first hands over the packet and then reads the
reply (`Serving`), however the C library cuts both into calls.
-/

namespace Aesd.Server

open Aesd.Lib Aesd.Driver

/-! ## Commits and replies -/

/-- The commit of a packet. -/
def Packet.action (p : Packet) : Action := commitAction p.bytes

/-- The log after a commit. -/
def commit (log : CommandLog) : Action → CommandLog
  | .write text => log.write text
  | .ioctl _ => log

/-- The position of a fresh file after a commit, on a stack that held `fill`. -/
def startPos (log : CommandLog) (fill : Nat → UInt8) : Action → Int
  | .ioctl seekto =>
      (ioctlResult log.stored 0 aesdcharIocseekto (seekto.onStack fill) .quiet).2
  | .write _ => 0

/-- The reply to a commit, on a stack that held `fill`. -/
def reply (log : CommandLog) (fill : Nat → UInt8) (a : Action) : List UInt8 :=
  (commit log a).readFrom (startPos log fill a)

/-! ## The stream of a commit -/

/-- Reading back: `delivered` is what was read and sent on or still on its
way, starting at `start`. -/
structure Reading (log : CommandLog) (start : Int) (s : Stream) (delivered : List UInt8) :
    Prop where
  out : s.out = []
  fPos : s.fPos = start + delivered.length
  delivered_prefix : delivered <+: log.readFrom start
  eof : s.eof = true → delivered = log.readFrom start

/-- A stream at `getline` or `send`, for a packet committed to the log `log₀`:
part of the packet is still to be written, or all is and it is read back. -/
inductive Serving (p : Packet) (log₀ log : CommandLog) (s : Stream)
    (delivered : List UInt8) : Prop where
  | printing (done : List UInt8) : p.action = .write p.bytes → p.bytes = done ++ s.out →
      s.out ≠ [] → log = log₀.write done → s.fPos = 0 → s.inp = [] → s.eof = false →
      delivered = [] → Serving p log₀ log s delivered
  | reading (fill : Nat → UInt8) : log = commit log₀ p.action →
      Reading log (startPos log₀ fill p.action) s delivered → Serving p log₀ log s delivered

section
variable {p : Packet} {log₀ log : CommandLog} {s : Stream} {delivered : List UInt8}

theorem ioctlResult_fresh (stored : List (List UInt8)) (seekto : AesdSeekto) :
    ioctlResult stored 0 aesdcharIocseekto seekto .quiet =
      let i := seekto.writeCmd.toNat % 10
      if seekto.writeCmd.toNat ≤ 10 ∧
          seekto.writeCmdOffset.toNat < toU32 (toI32 (stored[i]?.getD []).length) then
        (0, toI32 (toU32 (sizesSum (stored.take i) + seekto.writeCmdOffset.toNat)))
      else (-eInval, 0) := by
  have hto : ∀ x, toI64 (0 + toI32 x) = toI32 x := by
    intro x
    have := toI32_range x
    rw [Int.zero_add, toI64_of_range (by omega) (by omega)]
  unfold ioctlResult
  simp only [CallEnv.quiet, Bool.false_eq_true, if_false, ne_eq, not_true_eq_false, hto]
  by_cases hmax : seekto.writeCmd.toNat ≤ 10
  · rw [if_neg (by simpa using hmax)]
    simp [hmax]
  · rw [if_pos (by simpa using hmax)]
    simp [hmax]

/-- What it computes is an `int`. -/
theorem startPos_range (log : CommandLog) (fill : Nat → UInt8) (a : Action) :
    -2 ^ 31 ≤ startPos log fill a ∧ startPos log fill a < 2 ^ 31 := by
  unfold startPos
  split
  · rw [ioctlResult_fresh]
    dsimp only
    split
    · dsimp only
      exact toI32_range _
    · decide
  · decide

/-- On an empty ring the position stays. -/
theorem startPos_of_empty (log : CommandLog) (fill : Nat → UInt8) (a : Action) :
    (commit log a).stored ≠ [] ∨ startPos log fill a = 0 := by
  rw [or_iff_not_imp_left, not_not]
  intro h
  unfold startPos
  split
  · have h : log.stored = [] := h
    have h0 : toU32 (toI32 (([] : List UInt8).length : Int)) = 0 := rfl
    rw [ioctlResult_fresh, h]
    dsimp only
    rw [List.getElem?_nil, Option.getD_none, h0, if_neg (by omega)]
  · rfl

/-- **A read of the stream** delivers what comes next. -/
theorem Reading.refill {start : Int} {count : Nat} (h : Reading log start s delivered)
    (hlen : log.contents.length < 2 ^ 60) (hstart : -2 ^ 31 ≤ start ∧ start < 2 ^ 31)
    (hne : log.stored ≠ [] ∨ start = 0) (hcount : 0 < count) :
    ∃ next, readResult log.stored s.fPos count .quiet
        = some ((next.length : Int), next, s.fPos + next.length) ∧
      Reading log start { s with
        fPos := s.fPos + next.length
        inp := s.inp ++ next
        eof := decide (next = []) } (delivered ++ next) := by
  have hle := h.delivered_prefix.length_le
  have hfromle := readFrom_length_le log start
  have hne' : log.stored ≠ [] ∨ s.fPos = 0 := by
    rcases hne with hne | rfl
    · exact .inl hne
    · rw [or_iff_not_imp_left, not_not]
      intro hnil
      rw [CommandLog.contents, hnil] at hfromle
      rw [h.fPos]
      simp only [List.flatten_nil, List.length_nil] at hfromle
      omega
  have hadd := readFrom_add log h.delivered_prefix
  have hquiet : CallEnv.quiet.interrupted = false := rfl
  obtain ⟨next, hread, hpre, hnil⟩ := readResult_next log count hquiet rfl hlen
    (by rw [h.fPos]; omega) (by rw [h.fPos]; omega) hne'
  rw [h.fPos] at hpre hnil
  refine ⟨next, hread, h.out, ?_, ?_, ?_⟩
  · show s.fPos + next.length = start + (delivered ++ next).length
    rw [h.fPos, List.length_append]
    omega
  · rw [hadd]
    exact (List.prefix_append_right_inj delivered).mpr hpre
  · intro heof
    have hnext : next = [] := by simpa using heof
    rw [hadd, (hnil hcount).mp hnext, hnext]

theorem Reading.of_eq {start : Int} {s' : Stream} {delivered' : List UInt8}
    (h : Reading log start s delivered) (ho : s'.out = s.out) (hp : s'.fPos = s.fPos)
    (he : s'.eof = s.eof) (hd : delivered' = delivered) :
    Reading log start s' delivered' := by
  subst hd
  exact ⟨by rw [ho, h.out], by rw [hp, h.fPos], h.delivered_prefix, by rw [he]; exact h.eof⟩

/-- **`getline`** takes the start of what was read, or finds the end. -/
theorem Stream.getline_cases {r : Resp} {s' : Stream} (h : s.getline = some (r, s')) :
    s.out = [] ∧ s'.out = s.out ∧ s'.fPos = s.fPos ∧ s'.eof = s.eof ∧
      ((r = .int (-1) ∧ s.eof = true ∧ s.inp = [] ∧ s'.inp = []) ∨
        ∃ line, r = .bytes line ∧ line ≠ [] ∧ s.inp = line ++ s'.inp) := by
  unfold Stream.getline at h
  split at h
  · cases h
  rename_i hout
  have hout : s.out = [] := by simpa using hout
  split at h
  · rename_i hnl
    cases h
    refine ⟨hout, rfl, rfl, rfl, .inr ⟨_, rfl, ?_, (List.take_append_drop _ _).symm⟩⟩
    have hne := List.ne_nil_of_mem hnl
    simp [hne]
  · split at h
    · rename_i heof
      split at h
      · rename_i hinp
        cases h
        exact ⟨hout, rfl, rfl, rfl, .inl ⟨rfl, heof, hinp, hinp⟩⟩
      · rename_i hinp
        cases h
        exact ⟨hout, rfl, rfl, rfl, .inr ⟨_, rfl, hinp, (List.append_nil _).symm⟩⟩
    · cases h

/-- **A write of the stream**: some more of the packet is written, and after
the last of it the reply starts. -/
theorem Serving.flush {n : Nat} (h : Serving p log₀ log s delivered) (hn : 0 < n)
    (hle : n ≤ s.out.length) :
    Serving p log₀ (log.write (s.out.take n)) { s with out := s.out.drop n } delivered := by
  have hne : s.out ≠ [] := by
    intro hnil
    rw [hnil] at hle
    simp only [List.length_nil] at hle
    omega
  cases h with
  | reading _ _ hr => exact absurd hr.out hne
  | printing done hact hbytes _ hlog hpos hinp heof hdel =>
      -- the newline is the packet's last byte, so it is not written yet
      have hdone := Packet.newline_notMem hbytes hne
      have hlog' : log.write (s.out.take n) = log₀.write (done ++ s.out.take n) := by
        rw [hlog, CommandLog.write_write _ hdone]
      have hsplit : p.bytes = (done ++ s.out.take n) ++ s.out.drop n := by
        rw [List.append_assoc, List.take_append_drop, hbytes]
      by_cases hrest : s.out.drop n = []
      · rw [hrest, List.append_nil] at hsplit
        have hstart : startPos log₀ (fun _ => 0) p.action = 0 := by rw [hact]; rfl
        refine .reading (fun _ => 0) ?_ ⟨hrest, ?_, ?_, ?_⟩
        · rw [hlog', ← hsplit, hact]
          rfl
        · rw [hstart, hdel]
          exact hpos
        · rw [hdel]
          exact List.nil_prefix
        · intro he
          rw [show s.eof = true from he] at heof
          cases heof
      · exact .printing (done ++ s.out.take n) hact hsplit hrest hlog' hpos hinp heof hdel

end

end Aesd.Server
