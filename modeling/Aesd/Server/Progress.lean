import Aesd.Server.Interleaving
import Mathlib.Algebra.BigOperators.Group.Finset.Basic
import Mathlib.Algebra.Order.BigOperators.Group.Finset
import Mathlib.Data.Prod.Lex

/-!
# Progress

The system can always go on until every thread is done: from every state a
run reaches, the thread with the mutex, or any thread when it is free, has a
step, and each such step brings its connection nearer to the end
(`Consistent.finish`).
-/

namespace Aesd.Server

open Aesd.Lib Aesd.Driver

/-- What a connection needs to get to its end: its counters count its packet,
a data packet fits one allocation, and the contents fit an `int`. -/
structure Feasible {ι : Type} (packets : ι → Packet) (a₀ : LogState) : Prop where
  count : ∀ i, allocated (packets i).chunks < 2 ^ 31
  buffer : ∀ i, ¬ (packets i).IsSeek → a₀.buffer ≠ .freed
  room : ∀ i pre, ¬ (packets i).IsSeek →
    (logAfter packets a₀.log pre).pending.length + (packets i).bytes.length ≤ a₀.limit
  small : ∀ order w a, Consistent packets a₀ order w a → a.log.contents.length < 2 ^ 31

/-! ## The measure -/

/-- How far a thread is from its end. -/
def Pc.rank (pc : Pc) (chunks : Nat) : Nat :=
  match pc with
  | .inetNtop => 13 + 2 * chunks
  | .recv => if chunks = 0 then 1 else 11 + 2 * chunks
  | .realloc _ _ => 12 + 2 * chunks
  | .mutexLock => 10
  | .fopen => 9
  | .fprintf _ | .fileno _ => 8
  | .ioctl _ _ => 7
  | .getline | .send _ _ => 5
  | .fclose => 3
  | .mutexUnlock => 2
  | .done => 0

/-- How far a stream is from the end of its reply. -/
def Stream.rank (s : Stream) (contents unsent : Nat) : Nat :=
  4 * (contents - s.fPos.toNat) + 3 * s.inp.length + unsent +
    (if s.eof then 0 else 1)

/-- The bytes of the current line that are not sent, and one for the call. -/
def Pc.unsent : Pc → Nat
  | .send line total => line.length - total + 1
  | _ => 0

/-- The stream of the thread with the mutex. -/
def World.current {ι : Type} (w : World ι) : Option (Pc × Stream) := do
  let i ← w.mutex
  let file ← (w.threads i).phSocketDataFile
  let s ← w.streams file
  return ((w.threads i).pc, s)

theorem current_of_opened {ι : Type} {w : World ι} {i : ι} {s : Stream} (hm : w.mutex = some i)
    (h : Opened (w.threads i) w.streams s) : w.current = some ((w.threads i).pc, s) := by
  obtain ⟨file, hfile, hstream⟩ := h
  simp [World.current, hm, hfile, hstream]

/-- The measure of a state: all threads, then what is printed and not
written, then what is not yet read and sent. -/
def measure {ι : Type} [Fintype ι] (w : World ι) (log : CommandLog) : Nat ×ₗ Nat ×ₗ Nat :=
  toLex (∑ i, (w.threads i).pc.rank (w.inbox i).length,
    match w.current with
    | none => toLex (0, 0)
    | some (pc, s) => toLex (s.out.length, s.rank log.contents.length pc.unsent))

section
variable {ι : Type} [Fintype ι] {w w' : World ι} {i : ι} {log log' : CommandLog}

theorem measure_lt_of_rank (hsame : SameElse i w w')
    (hlt : (w'.threads i).pc.rank (w'.inbox i).length
      < (w.threads i).pc.rank (w.inbox i).length) :
    measure w' log' < measure w log := by
  refine Prod.Lex.toLex_lt_toLex.mpr (.inl ?_)
  refine Finset.sum_lt_sum (fun j _ => ?_) ⟨i, Finset.mem_univ i, hlt⟩
  by_cases hj : j = i
  · subst hj
    exact Nat.le_of_lt hlt
  · rw [hsame.threads j hj, hsame.inbox j hj]

/-- The stream of the thread with the mutex gets nearer to its end. -/
theorem measure_lt_of_stream {pc pc' : Pc} {s s' : Stream} (hsame : SameElse i w w')
    (hrank : (w'.threads i).pc.rank (w'.inbox i).length
      = (w.threads i).pc.rank (w.inbox i).length)
    (hcur : w.current = some (pc, s)) (hcur' : w'.current = some (pc', s'))
    (hlt : s'.out.length < s.out.length ∨ s'.out.length = s.out.length ∧
      s'.rank log'.contents.length pc'.unsent < s.rank log.contents.length pc.unsent) :
    measure w' log' < measure w log := by
  refine Prod.Lex.toLex_lt_toLex.mpr (.inr ⟨?_, ?_⟩)
  · refine Finset.sum_congr rfl fun j _ => ?_
    by_cases hj : j = i
    · subst hj
      exact hrank
    · rw [hsame.threads j hj, hsame.inbox j hj]
  · dsimp only
    rw [hcur, hcur']
    exact Prod.Lex.toLex_lt_toLex.mpr hlt

end

/-! ## Calls that return -/

section
variable {ι : Type} [DecidableEq ι] {packets : ι → Packet} {a₀ a : LogState}
  {order : List ι} {w w₁ : World ι} {i : ι} {n : Nat} {fill : Nat → UInt8}

theorem World.step_of {call : Call} {r : Resp} {t : Thread}
    (hs : ThreadStep (w.threads i) call r t)
    (hans : w.answer i n fill call = some (r, w₁)) :
    w.step (.call i n fill) = some (some (i, call), w₁.setThread i t) := by
  obtain ⟨hcall, hres⟩ := Thread.step_eq_some.mp hs.step
  simp only [World.step, hcall, hans, (World.answer_frame hans).1, hres,
    Option.bind_eq_bind, Option.bind_some, Option.pure_def]

/-- A step of thread `i` alone that brings it nearer to its end. -/
def Advances (w : World ι) (i : ι) : Prop :=
  ∃ act out w', w.step act = some (out, w') ∧ SameElse i w w' ∧
    (w'.threads i).pc.rank (w'.inbox i).length
      < (w.threads i).pc.rank (w.inbox i).length

theorem advances_of (n : Nat) (fill : Nat → UInt8) {call : Call} {r : Resp} {t : Thread}
    (hs : ThreadStep (w.threads i) call r t)
    (hans : w.answer i n fill call = some (r, w₁))
    (hlt : t.pc.rank (w₁.inbox i).length < (w.threads i).pc.rank (w.inbox i).length) :
    Advances w i := by
  refine ⟨_, _, _, World.step_of hs hans, World.answer_same hans t, ?_⟩
  rw [World.setThread_self]
  exact hlt

theorem allocated_append (xs ys : List (List UInt8)) :
    allocated (xs ++ ys) = allocated xs + allocated ys := by
  simp [allocated]

/-- **Outside the critical section** a thread goes on, at the lock when the
mutex is free. -/
theorem Consistent.advances_outside (h : Consistent packets a₀ order w a)
    (hf : Feasible packets a₀) (hlocked : (w.threads i).pc.locked = false)
    (hdone : (w.threads i).pc ≠ .done) (hfree : w.mutex = none) : Advances w i := by
  obtain ⟨got, hgot, hfol⟩ := h.follows i
  unfold Follows at hfol
  cases hpc : (w.threads i).pc with
  | inetNtop =>
      refine advances_of 0 (fun _ => 0) (.address hpc) rfl ?_
      rw [hpc]
      simp only [Pc.rank]
      split <;> omega
  | recv =>
      rw [hpc] at hfol
      cases hin : w.inbox i with
      | nil =>
          have hans : w.answer i 0 (fun _ => 0) (.recv (recvBufLen - 1))
              = some (.int 0, w) := by
            simp [World.answer, hin]
          refine advances_of 0 (fun _ => 0) (.ended hpc (.inr rfl)) hans ?_
          simp [hpc, hin, Thread.finish, Pc.rank]
      | cons chunk chunks =>
          have hans : w.answer i 0 (fun _ => 0) (.recv (recvBufLen - 1))
              = some (.bytes chunk, { w with inbox := Function.update w.inbox i chunks }) := by
            simp [World.answer, hin]
          -- the counters have room for a part of the packet
          have hcount := hf.count i
          rw [← hgot, hin, List.append_cons, allocated_append] at hcount
          have hlen := (packets i).sizes chunk (by rw [← hgot, hin]; simp)
          obtain ⟨t, ht⟩ := hfol.received_defined hlen.2 (by omega)
          obtain ⟨-, htpc⟩ := hfol.received hlen.2 ht
          refine advances_of 0 (fun _ => 0) (.received hpc hlen ht) hans ?_
          rw [htpc, hpc, hin]
          simp only [Pc.rank, Function.update_self, List.length_cons]
          split <;> omega
  | realloc bContainsNewline bIsFirstMalloc =>
      rw [hpc] at hfol
      obtain ⟨pre, chunk, -, hrec, rfl, rfl⟩ := hfol
      obtain ⟨t, ht, -, htpc⟩ :=
        hrec.reallocated (decide (newline ∈ chunkText chunk)) fun _ => 0
      refine advances_of 0 (fun _ => 0) (.reallocated hpc ht) rfl ?_
      rw [htpc, hpc]
      by_cases hn : newline ∈ chunkText chunk
      · simp [hn, Pc.rank]
        omega
      · simp only [hn, decide_false, Bool.false_eq_true, if_false, Pc.rank]
        split <;> omega
  | mutexLock =>
      have hans : w.answer i 0 (fun _ => 0) .pthreadMutexLock
          = some (.int 0, { w with mutex := some i }) := by
        simp [World.answer, hfree]
      refine advances_of 0 (fun _ => 0) (.locked hpc) hans ?_
      simp [hpc, Pc.rank]
  | done => exact absurd hpc hdone
  | _ =>
      rw [hpc] at hlocked
      cases hlocked

/-- **Inside the critical section**, away from the stream's loop, a thread
goes on. -/
theorem Consistent.advances_inside (h : Consistent packets a₀ order w a)
    (hm : w.mutex = some i) (hget : (w.threads i).pc ≠ .getline)
    (hsend : ∀ line total, (w.threads i).pc ≠ .send line total) : Advances w i := by
  obtain ⟨got, hgot, hfol⟩ := h.follows i
  obtain ⟨pre, hsplit, hin, hins⟩ := h.inside i hm
  unfold Follows at hfol
  unfold Inside at hins
  cases hpc : (w.threads i).pc with
  | fopen =>
      rw [hpc] at hfol
      obtain ⟨t, ht, -, -, htpc⟩ := hfol.1.opened hfol.2.ne_nil (some w.nextFile)
      refine advances_of 0 (fun _ => 0) (.opened hpc ht) rfl ?_
      rw [htpc, hpc]
      cases commitAction (session got).text <;> simp [Action.pc, Pc.rank]
  | fprintf text =>
      rw [hpc] at hins
      obtain ⟨-, -, -, file, hfile, hstream⟩ := hins
      have hans : w.answer i 0 (fun _ => 0) (.fprintf (w.threads i).phSocketDataFile text)
          = some (.int text.length,
            w.setStream file (some { Stream.fresh with out := Stream.fresh.out ++ text })) := by
        simp [World.answer, hfile, hstream]
      refine advances_of 0 (fun _ => 0) (.printed hpc) hans ?_
      simp [hpc, Pc.rank]
  | fileno seekto =>
      rw [hpc] at hins
      obtain ⟨-, -, -, file, hfile, hstream⟩ := hins
      have hans : w.answer i 0 (fun _ => 0) (.fileno (w.threads i).phSocketDataFile)
          = some (.int file, w) := by
        simp [World.answer, hfile]
      refine advances_of 0 (fun _ => 0) (.number hpc) hans ?_
      simp [hpc, Pc.rank]
  | ioctl fd seekto =>
      rw [hpc] at hins
      obtain ⟨-, -, -, file, rfl, -, hstream⟩ := hins
      obtain ⟨ret, hret⟩ := aesdIoctl_fresh h.tracks seekto fun _ => 0
      have hpos : Stream.fresh.fPos = 0 := rfl
      have hans : w.answer i 0 (fun _ => 0) (.ioctl file aesdcharIocseekto seekto)
          = some (.int (if ret < 0 then -1 else ret), w.setStream file
            (some { Stream.fresh with fPos := startPos a.log (fun _ => 0) (.ioctl seekto) })) := by
        simp only [World.answer, Int.toNat_natCast, hstream, hpos, hret, Option.bind_eq_bind,
          Option.bind_some, Option.pure_def]
      refine advances_of 0 (fun _ => 0) (.sought hpc) hans ?_
      simp [hpc, Pc.rank]
  | fclose =>
      rw [hpc] at hins
      obtain ⟨-, -, s, ⟨file, hfile, hstream⟩, hout⟩ := hins
      have hans : w.answer i 0 (fun _ => 0) (.fclose (w.threads i).phSocketDataFile)
          = some (.int 0, w.setStream file none) := by
        simp [World.answer, hfile, hstream, hout]
      refine advances_of 0 (fun _ => 0) (.fileClosed hpc) hans ?_
      simp [hpc, Pc.rank]
  | mutexUnlock =>
      refine advances_of 0 (fun _ => 0) (.unlocked hpc) rfl ?_
      simp [hpc, hin, Pc.rank]
  | getline => exact absurd hpc hget
  | send line total => exact absurd hpc (hsend line total)
  | _ =>
      rw [hpc] at hins
      exact hins.elim

/-- **Sending**: the rest of the line goes out at once. -/
theorem Consistent.progress_send [Fintype ι] (h : Consistent packets a₀ order w a)
    (hf : Feasible packets a₀) (hm : w.mutex = some i) {line : List UInt8} {total : Nat}
    (hpc : (w.threads i).pc = .send line total) :
    ∃ act out w', w.step act = some (out, w') ∧
      Consistent packets a₀ (order ++ lockOrder [out]) w' a ∧
      measure w' a.log < measure w a.log := by
  obtain ⟨pre, hsplit, hin, hins⟩ := h.inside i hm
  unfold Inside at hins
  rw [hpc] at hins
  obtain ⟨htotal, hline, -, s, -, hopen, -⟩ := hins
  have hsmall := hf.small order w a h
  have hn : (line.drop total).length = line.length - total := List.length_drop
  have hans : w.answer i (line.length - total) (fun _ => 0) (.send (line.drop total))
      = some (.int (line.length - total : Nat), { w with
        outbox := Function.update w.outbox i
          (w.outbox i ++ (line.drop total).take (line.length - total)) }) := by
    simp only [World.answer]
    rw [if_pos (by omega)]
  have hstep : ThreadStep (w.threads i) (.send (line.drop total))
      (.int (line.length - total : Nat)) { w.threads i with pc := .getline } := by
    have hsent := ThreadStep.sent (n := (line.length - total : Nat)) hpc (by omega)
    rwa [Thread.sendLoop, Int.toNat_natCast, if_neg (by omega)] at hsent
  have hs := World.step_of hstep hans
  refine ⟨_, _, _, hs, h.step_call hs, ?_⟩
  refine measure_lt_of_stream (World.answer_same hans _) ?_
    (current_of_opened hm hopen) (current_of_opened hm (s := s) ?_) (.inr ⟨rfl, ?_⟩)
  · rw [World.setThread_self, hpc]
    rfl
  · rw [World.setThread_self]
    exact hopen
  · rw [World.setThread_self, hpc]
    simp only [Stream.rank, Pc.unsent]
    omega

theorem Stream.getline_isSome {s : Stream} (hout : s.out = [])
    (h : newline ∈ s.inp ∨ s.eof = true) : ∃ r s', s.getline = some (r, s') := by
  unfold Stream.getline
  rw [if_neg (by simp [hout])]
  split
  · exact ⟨_, _, rfl⟩
  · rename_i hn
    rw [if_pos (h.resolve_left hn)]
    split <;> exact ⟨_, _, rfl⟩

/-- **A line**, or the end: `getline` returns. -/
theorem Consistent.progress_getline [Fintype ι] (h : Consistent packets a₀ order w a)
    (hm : w.mutex = some i) (hpc : (w.threads i).pc = .getline) {s : Stream}
    (hopen : Opened (w.threads i) w.streams s) (hout : s.out = [])
    (hready : newline ∈ s.inp ∨ s.eof = true) :
    ∃ act out w', w.step act = some (out, w') ∧
      Consistent packets a₀ (order ++ lockOrder [out]) w' a ∧
      measure w' a.log < measure w a.log := by
  obtain ⟨file, hfile, hstream⟩ := hopen
  obtain ⟨r, s', hline⟩ := Stream.getline_isSome hout hready
  have hans : w.answer i 0 (fun _ => 0) (.getline (w.threads i).phSocketDataFile)
      = some (r, w.setStream file (some s')) := by
    simp [World.answer, hfile, hstream, hline]
  obtain ⟨-, hout', hpos, heof, hcases⟩ := Stream.getline_cases hline
  rcases hcases with ⟨rfl, -, -, -⟩ | ⟨line, rfl, hne, hinp⟩
  · have hs := World.step_of (.endOfFile hpc) hans
    refine ⟨_, _, _, hs, h.step_call hs, measure_lt_of_rank (World.answer_same hans _) ?_⟩
    rw [World.setThread_self, hpc]
    simp [Pc.rank]
  · have hlen : 0 < line.length := List.length_pos_of_ne_nil hne
    have hstep : ThreadStep (w.threads i) (.getline (w.threads i).phSocketDataFile)
        (.bytes line) { w.threads i with pc := .send line 0 } := by
      have hread : ThreadStep (w.threads i) _ (.bytes line) _ := .line hpc
      rwa [Thread.sendLoop, if_pos hlen] at hread
    have hs := World.step_of hstep hans
    refine ⟨_, _, _, hs, h.step_call hs, ?_⟩
    refine measure_lt_of_stream (World.answer_same hans _) ?_
      (current_of_opened hm ⟨file, hfile, hstream⟩)
      (current_of_opened hm (s := s') ?_) (.inr ⟨by rw [hout'], ?_⟩)
    · rw [World.setThread_self, hpc]
      rfl
    · rw [World.setThread_self]
      exact ⟨file, hfile, Function.update_self _ _ _⟩
    · have hsum := congrArg List.length hinp
      rw [List.length_append] at hsum
      rw [World.setThread_self, hpc]
      simp only [Stream.rank, Pc.unsent, hpos, heof]
      omega

/-- **A read**: no line is there yet. -/
theorem Consistent.progress_refill [Fintype ι] (h : Consistent packets a₀ order w a)
    (hm : w.mutex = some i) (hpc : (w.threads i).pc = .getline) {log₀ : CommandLog}
    {s : Stream} {delivered : List UInt8} (hopen : Opened (w.threads i) w.streams s)
    (hlog : a.log = commit log₀ (packets i).action)
    {fill : Nat → UInt8}
    (hread : Reading a.log (startPos log₀ fill (packets i).action) s delivered)
    (hnl : newline ∉ s.inp) (heof : s.eof = false) :
    ∃ act out w', w.step act = some (out, w') ∧
      Consistent packets a₀ (order ++ lockOrder [out]) w' a ∧
      measure w' a.log < measure w a.log := by
  obtain ⟨file, hfile, hstream⟩ := hopen
  obtain ⟨held, es, hr⟩ := h.tracks.ring
  have hstart := startPos_range log₀ fill (packets i).action
  have hne := startPos_of_empty log₀ fill (packets i).action
  rw [← hlog] at hne
  obtain ⟨next, hnext, hread'⟩ := hread.refill hr.contents_lt hstart hne Nat.one_pos
  have hs : w.step (.refill i 1) = some (none, w.setStream file (some { s with
      fPos := s.fPos + next.length
      inp := s.inp ++ next
      eof := decide (next = []) })) := by
    simp [World.step, hfile, hstream, hpc, hread.out, hnl, heof, hr.aesdRead, hnext]
  refine ⟨_, _, _, hs, by simpa [lockOrder] using (h.step_refill hs).2, ?_⟩
  refine measure_lt_of_stream (i := i) ⟨fun _ _ => rfl, fun _ _ => rfl, fun _ _ => rfl⟩ rfl
    (current_of_opened hm ⟨file, hfile, hstream⟩)
    (current_of_opened hm ⟨file, hfile, Function.update_self _ _ _⟩) (.inr ⟨rfl, ?_⟩)
  -- what was read was before the position, and no more than there is
  have hpos := hread.fPos
  have hle := hread'.delivered_prefix.length_le
  show Stream.rank _ _ (w.threads i).pc.unsent < Stream.rank _ _ (w.threads i).pc.unsent
  simp only [Stream.rank, heof, List.length_append] at hle ⊢
  by_cases hnil : next = []
  · simp [hnil]
  · have hlen := List.length_pos_of_ne_nil hnil
    unfold CommandLog.readFrom at hle
    split at hle
    · simp only [List.length_nil] at hle
      omega
    · rw [List.length_drop] at hle
      simp only [hnil, decide_false, Bool.false_eq_true, if_false]
      omega

/-- **A write**: all that is printed goes out at once. -/
theorem Consistent.progress_flush [Fintype ι] (h : Consistent packets a₀ order w a)
    (hf : Feasible packets a₀) (hm : w.mutex = some i) (hpc : (w.threads i).pc = .getline)
    {pre : List ι} {s : Stream} {done : List UInt8}
    (hopen : Opened (w.threads i) w.streams s)
    (hact : (packets i).action = .write (packets i).bytes)
    (hbytes : (packets i).bytes = done ++ s.out) (hne : s.out ≠ [])
    (hlog : a.log = (logAfter packets a₀.log pre).write done) :
    ∃ act out w' a', w.step act = some (out, w') ∧
      Consistent packets a₀ (order ++ lockOrder [out]) w' a' ∧
      measure w' a'.log < measure w a.log := by
  obtain ⟨file, hfile, hstream⟩ := hopen
  have hdata : ¬ (packets i).IsSeek := by
    intro hseek
    unfold Packet.IsSeek at hseek
    unfold Packet.action commitAction at hact
    rw [if_pos hseek] at hact
    cases hact
  have hpos := List.length_pos_of_ne_nil hne
  have hsum := congrArg List.length hbytes
  rw [List.length_append] at hsum
  -- the packet fits one allocation, so the write is granted its memory
  have hcount := hf.count i
  have hflat := flatten_length_le_allocated (packets i).chunks
  have hbound : s.out.length < 2 ^ 31 := by
    have : (packets i).bytes.length = (packets i).chunks.flatten.length := rfl
    omega
  have hroom := hf.room i pre hdata
  have hpend := (CommandLog.write_append (logAfter packets a₀.log pre)
    (Packet.newline_notMem hbytes hne)).2
  rw [← hlog] at hpend
  have hstored : writeOutcome a.limit a.log.pending.length ⟨s.out, hbound⟩
      .quiet = .stored := by
    have hgrants : WriteEnv.quiet.kalloc.Grants a.limit
        (s.out.length + a.log.pending.length) := by
      refine .inr ⟨rfl, ?_⟩
      rw [h.limit, hpend, List.length_append]
      omega
    simp only [writeOutcome]
    rw [if_neg (by simp [WriteEnv.quiet]), if_pos hgrants, if_neg (by simp [WriteEnv.quiet])]
  obtain ⟨a₁, hwrite⟩ : ∃ a₁, a.write ⟨s.out, hbound⟩ .quiet
      = some ((s.out.length : Int), a₁) := by
    simp only [LogState.write, hstored]
    cases hb : a.buffer with
    | freed => exact absurd hb (h.buffer (hf.buffer i hdata))
    | nothing => exact ⟨_, rfl⟩
    | held => exact ⟨_, rfl⟩
  have hlock := h.tracks.write ⟨s.out, hbound⟩ .quiet
  rw [hwrite] at hlock
  obtain ⟨driver, hdriver, -⟩ := hlock.of_some_right
  have hs : w.step (.flush i s.out.length .quiet) = some (none,
      ({ w with driver } : World ι).setStream file
        (some { s with out := s.out.drop s.out.length })) := by
    simpa [World.step, hfile, hstream, hpc, hpos, hdriver] using hbound
  obtain ⟨-, a', ha'⟩ := h.step_flush hs
  refine ⟨_, _, _, a', hs, by simpa [lockOrder] using ha', ?_⟩
  refine measure_lt_of_stream (i := i) ⟨fun _ _ => rfl, fun _ _ => rfl, fun _ _ => rfl⟩ rfl
    (current_of_opened hm ⟨file, hfile, hstream⟩)
    (current_of_opened hm ⟨file, hfile, Function.update_self _ _ _⟩) (.inl ?_)
  simpa using hpos

/-- **One step nearer to the end**: as long as some thread is not done. -/
theorem Consistent.progress [Fintype ι] (h : Consistent packets a₀ order w a)
    (hf : Feasible packets a₀) (hdone : ¬ ∀ i, (w.threads i).pc = .done) :
    ∃ act out w' a', w.step act = some (out, w') ∧
      Consistent packets a₀ (order ++ lockOrder [out]) w' a' ∧
      measure w' a'.log < measure w a.log := by
  have hadvances : ∀ i, Advances w i → ∃ act out w' a', w.step act = some (out, w') ∧
      Consistent packets a₀ (order ++ lockOrder [out]) w' a' ∧
      measure w' a'.log < measure w a.log := by
    rintro i ⟨act, out, w', hs, hsame, hlt⟩
    obtain ⟨a', h'⟩ := h.step hs
    exact ⟨act, out, w', a', hs, h', measure_lt_of_rank hsame hlt⟩
  cases hm : w.mutex with
  | none =>
      obtain ⟨i, hi⟩ := not_forall.mp hdone
      refine hadvances i (h.advances_outside hf ?_ hi hm)
      cases hl : (w.threads i).pc.locked with
      | false => rfl
      | true =>
          have := h.holder hl
          rw [hm] at this
          cases this
  | some i =>
      by_cases hsend : ∃ line total, (w.threads i).pc = .send line total
      · obtain ⟨line, total, hpc⟩ := hsend
        obtain ⟨act, out, w', hs⟩ := h.progress_send hf hm hpc
        exact ⟨act, out, w', a, hs⟩
      by_cases hpc : (w.threads i).pc = .getline
      · obtain ⟨pre, -, -, hins⟩ := h.inside i hm
        unfold Inside at hins
        rw [hpc] at hins
        obtain ⟨s, hopen, hserving⟩ := hins
        cases hserving with
        | printing done hact hbytes hne hlog =>
            exact h.progress_flush hf hm hpc hopen hact hbytes hne hlog
        | reading fill hlog hread =>
            by_cases hready : newline ∈ s.inp ∨ s.eof = true
            · obtain ⟨act, out, w', hs⟩ :=
                h.progress_getline hm hpc hopen hread.out hready
              exact ⟨act, out, w', a, hs⟩
            · obtain ⟨hnl, heof⟩ := not_or.mp hready
              obtain ⟨act, out, w', hs⟩ :=
                h.progress_refill hm hpc hopen hlog hread hnl (by simpa using heof)
              exact ⟨act, out, w', a, hs⟩
      · exact hadvances i
          (h.advances_inside hm hpc fun line total hs => hsend ⟨line, total, hs⟩)

/-- **The system can always finish.** -/
theorem Consistent.finish [Fintype ι] (h : Consistent packets a₀ order w a)
    (hf : Feasible packets a₀) :
    ∃ acts outs w', run World.step w acts = some (outs, w') ∧
      ∀ i, (w'.threads i).pc = .done := by
  refine run_terminates (r := (· < ·)) wellFounded_lt
    (I := fun w m => ∃ order a, Consistent packets a₀ order w a ∧ m = measure w a.log)
    (F := fun w => ∀ i, (w.threads i).pc = .done) ?_ ⟨order, a, h, rfl⟩
  rintro w m ⟨order, a, h, rfl⟩ hdone
  obtain ⟨act, out, w', a', hs, h', hlt⟩ := h.progress hf hdone
  exact ⟨act, out, w', _, hs, ⟨_, a', h', rfl⟩, hlt⟩

end

end Aesd.Server
