import Aesd.Server.Traffic
import Aesd.Server.Progress
import Aesd.Server.Receive

/-!
# Any traffic can finish

From every state a run over any traffic reaches, the thread with the mutex can
go on to its end alone, and then every other thread can (`Ongoing.finish`): a
thread waits for nothing but the mutex, and the thread that has it for nothing
at all. The chunks have to be ones that `recv` gives, the counters and the
allocations have to have room for them.
-/

namespace Aesd.Server

open Aesd.Lib Aesd.Driver

/-! ## What is pending -/

theorem session_text_length_le (chunks : List (List UInt8)) :
    (session chunks).text.length ≤ chunks.flatten.length := by
  rw [session_text]
  exact chunkText_flatten_length_le chunks

theorem Commits.newline_mem {chunks : List (List UInt8)} (h : Commits chunks) :
    newline ∈ (session chunks).text := by
  obtain ⟨pre, chunk, rfl, hn⟩ := h
  rw [session_text]
  simp [hn]

/-- **Between commits** no more is pending than there was at the start, or than
one connection has sent. -/
theorem Serial.pending_le_of_run {ι : Type} [DecidableEq ι] {log : CommandLog}
    {acts : List (SerialAct ι)} {outs : List (Option (ι × Action))} {s : Serial ι} {n : Nat}
    (h : run Serial.step (.init log) acts = some (outs, s)) (hlog : log.pending.length ≤ n)
    (hgot : ∀ i, (s.got i).flatten.length ≤ n) : s.log.pending.length ≤ n := by
  revert hgot
  refine run_history (P := fun _ _ s =>
    (∀ i, (s.got i).flatten.length ≤ n) → s.log.pending.length ≤ n) (fun _ => hlog) ?_ h
  intro acts outs s act out s' hrun ih hs hgot
  cases act with
  | receive i chunk =>
      simp only [Serial.step] at hs
      split at hs <;> cases hs
      refine ih fun j => ?_
      have hj := hgot j
      by_cases hji : j = i
      · subst hji
        simp only [Serial.receive, Function.update_self, List.flatten_append,
          List.length_append] at hj
        omega
      · simpa only [Serial.receive, Function.update_of_ne hji] using hj
  | commit i cut fill =>
      simp only [Serial.step] at hs
      split at hs <;> cases hs
      rename_i hcut
      obtain ⟨hdue, hflat, -⟩ := hcut
      have hi : (s.got i).flatten.length ≤ n := hgot i
      have htext := session_text_length_le (s.got i)
      show (cut.foldl CommandLog.write s.log).pending.length ≤ n
      cases hact : s.action i with
      | write text =>
          have hnl := ((Serial.done_of_run hrun i).due hdue).newline_mem
          have heq : (session (s.got i)).text = text := text_of_commitAction hact
          rw [hact] at hflat
          have hflat : cut.flatten = text := hflat
          have hmem : newline ∈ cut.flatten := by
            rw [hflat, ← heq]
            exact hnl
          have hle := s.log.foldl_write_pending_of_mem hmem
          rw [hflat, ← heq] at hle
          omega
      | ioctl seekto =>
          rw [hact] at hflat
          have hflat : cut.flatten = [] := hflat
          have hle := CommandLog.foldl_write_pending_le s.log cut
          rw [hflat, List.length_nil] at hle
          have := ih hgot
          omega

/-! ## What traffic needs -/

/-- What any traffic needs to be served to its end: `recv` gives the chunks, the
counters count them, no block was lost, a text and what is pending with it fit
one allocation, and the contents an `int`. -/
structure Servable {ι : Type} (chunks : ι → List (List UInt8)) (a₀ : LogState) (n : Nat) :
    Prop where
  sizes : ∀ i, ∀ c ∈ chunks i, 0 < c.length ∧ c.length ≤ recvBufLen - 1
  count : ∀ i, allocated (chunks i) < 2 ^ 31
  buffer : a₀.buffer ≠ .freed
  sent : ∀ i, (chunks i).flatten.length ≤ n
  pending : a₀.log.pending.length ≤ n
  limit : 2 * n ≤ a₀.limit
  small : 10 * a₀.limit < 2 ^ 31

/-- A state of the system that whole commits lead to. -/
structure Ongoing {ι : Type} [DecidableEq ι] (chunks : ι → List (List UInt8))
    (a₀ : LogState) (w : World ι) (a : LogState) (s : Serial ι) : Prop where
  serial : Reachable Serial.step (.init a₀.log) s
  serializes : Serializes chunks a₀ w a s

/-! ## The measure -/

/-- How far a thread is from its end, with `chunks` to receive. -/
def Pc.left (pc : Pc) (chunks : Nat) : Nat :=
  12 * chunks + match pc with
    | .inetNtop => 13
    | .recv => 1
    | .realloc _ _ => 12
    | .mutexLock => 10
    | .fopen => 9
    | .fprintf _ | .fileno _ => 8
    | .ioctl _ _ => 7
    | .getline | .send _ _ => 5
    | .fclose => 3
    | .mutexUnlock => 2
    | .done => 0

/-- How far thread `i` is from its end, when it is its turn: its calls, then
what is printed and not written, then what is not yet read and sent. -/
def World.left {ι : Type} (w : World ι) (i : ι) : Nat ×ₗ Nat ×ₗ Nat :=
  toLex ((w.threads i).pc.left (w.inbox i).length,
    match w.current with
    | none => toLex (0, 0)
    | some (pc, s) => toLex (s.out.length, s.rank w.driver.entries.flatten.length pc.unsent))

/-- The mutex does not keep thread `i` waiting. -/
def World.Turn {ι : Type} (w : World ι) (i : ι) : Prop := w.mutex = none ∨ w.mutex = some i

/-- A step of thread `i` alone that brings it nearer to its end. -/
def GoesOn {ι : Type} [DecidableEq ι] (w : World ι) (i : ι) : Prop :=
  ∃ act out w', w.step act = some (out, w') ∧ SameElse i w w' ∧ w'.Turn i ∧
    w'.left i < w.left i

section
variable {ι : Type} {w w' : World ι} {i : ι}

@[simp] theorem World.setStream_inbox (w : World ι) (file : Nat) (st : Option Stream) :
    (w.setStream file st).inbox = w.inbox := rfl

theorem Serializes.text_length_le {chunks : ι → List (List UInt8)} {a₀ a : LogState}
    {s : Serial ι} (h : Serializes chunks a₀ w a s) (i : ι) :
    (s.action i).text.length ≤ (chunks i).flatten.length := by
  have htext := session_text_length_le (s.got i)
  have hgot := congrArg (fun cs => (List.flatten cs).length) (h.inbox i)
  simp only [List.flatten_append, List.length_append] at hgot
  have hle : (s.action i).text.length ≤ (session (s.got i)).text.length := by
    unfold Serial.action commitAction
    split
    · exact Nat.zero_le _
    · exact Nat.le_refl _
  omega

theorem left_lt_of_pc (hlt : (w'.threads i).pc.left (w'.inbox i).length
    < (w.threads i).pc.left (w.inbox i).length) : w'.left i < w.left i :=
  Prod.Lex.toLex_lt_toLex.mpr (.inl hlt)

theorem left_lt_of_stream {pc pc' : Pc} {s s' : Stream}
    (hleft : (w'.threads i).pc.left (w'.inbox i).length
      = (w.threads i).pc.left (w.inbox i).length)
    (hcur : w.current = some (pc, s)) (hcur' : w'.current = some (pc', s'))
    (hlt : s'.out.length < s.out.length ∨ s'.out.length = s.out.length ∧
      s'.rank w'.driver.entries.flatten.length pc'.unsent
        < s.rank w.driver.entries.flatten.length pc.unsent) :
    w'.left i < w.left i := by
  refine Prod.Lex.toLex_lt_toLex.mpr (.inr ⟨hleft, ?_⟩)
  dsimp only
  rw [hcur, hcur']
  exact Prod.Lex.toLex_lt_toLex.mpr hlt

end

section
variable {ι : Type} [DecidableEq ι] {w w₁ w' : World ι} {i : ι} {n : Nat}
  {fill : Nat → UInt8}

/-- A call that returns, and leads to a call nearer to the end. -/
theorem goesOn_of (n : Nat) (fill : Nat → UInt8) {call : Call} {r : Resp} {t : Thread}
    (hs : ThreadStep (w.threads i) call r t)
    (hans : w.answer i n fill call = some (r, w₁)) (hturn : w₁.Turn i)
    (hlt : t.pc.left (w₁.inbox i).length < (w.threads i).pc.left (w.inbox i).length) :
    GoesOn w i := by
  refine ⟨_, _, _, World.step_of hs hans, World.answer_same hans t, hturn, left_lt_of_pc ?_⟩
  rw [World.setThread_self]
  exact hlt

variable {chunks : ι → List (List UInt8)} {a₀ a : LogState} {s : Serial ι}

/-- **Outside the critical section** a thread goes on. -/
theorem Serializes.goesOn_outside (h : Serializes chunks a₀ w a s)
    (hf : Servable chunks a₀ n) (hlocked : (w.threads i).pc.locked = false)
    (hdone : (w.threads i).pc ≠ .done) (hfree : w.mutex = none) : GoesOn w i := by
  have hfol := h.follows i
  unfold Follows at hfol
  cases hpc : (w.threads i).pc with
  | inetNtop =>
      apply goesOn_of 0 (fun _ => 0) (.address hpc) rfl (.inl hfree)
      rw [hpc]
      simp [Pc.left]
  | recv =>
      rw [hpc] at hfol
      cases hin : w.inbox i with
      | nil =>
          have hans : w.answer i 0 (fun _ => 0) (.recv (recvBufLen - 1))
              = some (.int 0, w) := by
            simp [World.answer, hin]
          apply goesOn_of 0 (fun _ => 0) (.ended hpc (.inr rfl)) hans (.inl hfree)
          rw [hpc]
          simp [Thread.finish, Pc.left]
      | cons chunk rest =>
          have hans : w.answer i 0 (fun _ => 0) (.recv (recvBufLen - 1))
              = some (.bytes chunk, { w with inbox := Function.update w.inbox i rest }) := by
            simp [World.answer, hin]
          have hgot := h.inbox i
          rw [hin] at hgot
          -- the counters have room for a part of the traffic
          have hcount := hf.count i
          rw [← hgot, List.append_cons, allocated_append] at hcount
          have hlen := hf.sizes i chunk (by rw [← hgot]; simp)
          obtain ⟨t, ht⟩ := hfol.received_defined hlen.2 (by omega)
          obtain ⟨-, htpc⟩ := hfol.received hlen.2 ht
          apply goesOn_of 0 (fun _ => 0) (.received hpc hlen ht) hans (.inl hfree)
          rw [htpc, hpc, hin]
          simp only [Pc.left, Function.update_self, List.length_cons]
          omega
  | realloc bContainsNewline bIsFirstMalloc =>
      rw [hpc] at hfol
      obtain ⟨pre, chunk, -, hrec, rfl, rfl⟩ := hfol
      obtain ⟨t, ht, -, htpc⟩ :=
        hrec.reallocated (decide (newline ∈ chunkText chunk)) fun _ => 0
      apply goesOn_of 0 (fun _ => 0) (.reallocated hpc ht) rfl (.inl hfree)
      rw [htpc, hpc]
      cases decide (newline ∈ chunkText chunk) <;> simp [Pc.left]
  | mutexLock =>
      have hans : w.answer i 0 (fun _ => 0) .pthreadMutexLock
          = some (.int 0, { w with mutex := some i }) := by
        simp [World.answer, hfree]
      apply goesOn_of 0 (fun _ => 0) (.locked hpc) hans (.inr rfl)
      rw [hpc]
      simp [Pc.left]
  | done => exact absurd hpc hdone
  | _ =>
      rw [hpc] at hlocked
      cases hlocked

/-- **Inside the critical section**, away from the stream's loop, a thread goes
on. -/
theorem Serializes.goesOn_inside (h : Serializes chunks a₀ w a s)
    (hm : w.mutex = some i) (hget : (w.threads i).pc ≠ .getline)
    (hsend : ∀ line total, (w.threads i).pc ≠ .send line total) : GoesOn w i := by
  have hfol := h.follows i
  have hin := h.inside i hm
  unfold Follows at hfol
  unfold Within at hin
  cases hpc : (w.threads i).pc with
  | fopen =>
      rw [hpc] at hfol
      obtain ⟨t, ht, -, -, htpc⟩ := hfol.1.opened hfol.2.ne_nil (some w.nextFile)
      apply goesOn_of 0 (fun _ => 0) (.opened hpc ht) rfl (.inr hm)
      rw [htpc, hpc]
      cases commitAction (session (s.got i)).text <;> simp [Action.pc, Pc.left]
  | fprintf text =>
      rw [hpc] at hin
      obtain ⟨-, -, -, file, hfile, hstream⟩ := hin
      have hans : w.answer i 0 (fun _ => 0) (.fprintf (w.threads i).phSocketDataFile text)
          = some (.int text.length,
            w.setStream file (some { Stream.fresh with out := Stream.fresh.out ++ text })) := by
        simp [World.answer, hfile, hstream]
      apply goesOn_of 0 (fun _ => 0) (.printed hpc) hans (.inr hm)
      rw [hpc]
      simp [Pc.left]
  | fileno seekto =>
      rw [hpc] at hin
      obtain ⟨-, -, -, file, hfile, hstream⟩ := hin
      have hans : w.answer i 0 (fun _ => 0) (.fileno (w.threads i).phSocketDataFile)
          = some (.int file, w) := by
        simp [World.answer, hfile]
      apply goesOn_of 0 (fun _ => 0) (.number hpc) hans (.inr hm)
      rw [hpc]
      simp [Pc.left]
  | ioctl fd seekto =>
      rw [hpc] at hin
      obtain ⟨-, -, -, file, rfl, -, hstream⟩ := hin
      obtain ⟨ret, hret⟩ := aesdIoctl_fresh h.tracks seekto fun _ => 0
      have hpos : Stream.fresh.fPos = 0 := rfl
      obtain ⟨r, w₁, hans, hmutex, hinbox⟩ : ∃ r w₁,
          w.answer i 0 (fun _ => 0) (.ioctl file aesdcharIocseekto seekto)
            = some (.int r, w₁) ∧ w₁.mutex = w.mutex ∧ w₁.inbox = w.inbox := by
        simp only [World.answer, Int.toNat_natCast, hstream, hpos, hret, Option.bind_eq_bind,
          Option.bind_some, Option.pure_def]
        exact ⟨_, _, rfl, rfl, rfl⟩
      apply goesOn_of 0 (fun _ => 0) (.sought hpc) hans (.inr (hmutex.trans hm))
      rw [hpc, hinbox]
      simp [Pc.left]
  | fclose =>
      rw [hpc] at hin
      obtain ⟨-, st, ⟨file, hfile, hstream⟩, hout⟩ := hin
      have hans : w.answer i 0 (fun _ => 0) (.fclose (w.threads i).phSocketDataFile)
          = some (.int 0, w.setStream file none) := by
        simp [World.answer, hfile, hstream, hout]
      apply goesOn_of 0 (fun _ => 0) (.fileClosed hpc) hans (.inr hm)
      rw [hpc]
      simp [Pc.left]
  | mutexUnlock =>
      apply goesOn_of 0 (fun _ => 0) (.unlocked hpc) rfl (.inl rfl)
      rw [hpc]
      simp [Pc.left]
  | getline => exact absurd hpc hget
  | send line total => exact absurd hpc (hsend line total)
  | _ =>
      rw [hpc] at hin
      exact hin.elim

/-- **Sending**: the rest of the line goes out at once. -/
theorem Serializes.goesOn_send (h : Serializes chunks a₀ w a s) (hf : Servable chunks a₀ n)
    (hm : w.mutex = some i) {line : List UInt8} {total : Nat}
    (hpc : (w.threads i).pc = .send line total) : GoesOn w i := by
  have hin := h.inside i hm
  unfold Within at hin
  rw [hpc] at hin
  obtain ⟨htotal, hline, st, -, hopen, -⟩ := hin
  -- the counter of `writeback` has room for the contents
  obtain ⟨held, es, hr⟩ := h.tracks.ring
  have hsmall := hr.contents_le
  rw [h.tracks.limit, h.limit] at hsmall
  have hbound : a.log.contents.length < 2 ^ 31 := by
    have := hf.small
    omega
  have hn : (line.drop total).length = line.length - total := List.length_drop
  have hans : w.answer i (line.length - total) (fun _ => 0) (.send (line.drop total))
      = some (.int (line.length - total : Nat), { w with
        outbox := Function.update w.outbox i
          (w.outbox i ++ (line.drop total).take (line.length - total)) }) := by
    simp only [World.answer]
    rw [if_pos (by omega)]
  have hstep : ThreadStep (w.threads i) (.send (line.drop total))
      (.int (line.length - total : Nat)) { w.threads i with pc := .getline } := by
    have hsent := ThreadStep.sent (n := (line.length - total : Nat)) hpc (by omega)
    rwa [Thread.sendLoop, Int.toNat_natCast, if_neg (by omega)] at hsent
  refine ⟨_, _, _, World.step_of hstep hans, World.answer_same hans _, .inr hm, ?_⟩
  refine left_lt_of_stream ?_ (current_of_opened hm hopen)
    (current_of_opened hm (s := st) ?_) (.inr ⟨rfl, ?_⟩)
  · rw [World.setThread_self, hpc]
    rfl
  · rw [World.setThread_self]
    exact hopen
  · rw [World.setThread_self, hpc]
    show Stream.rank _ w.driver.entries.flatten.length _ < _
    simp only [Stream.rank, Pc.unsent]
    omega

/-- **A line**, or the end: `getline` returns. -/
theorem goesOn_getline (hm : w.mutex = some i) (hpc : (w.threads i).pc = .getline)
    {st : Stream} (hopen : Opened (w.threads i) w.streams st) (hout : st.out = [])
    (hready : newline ∈ st.inp ∨ st.eof = true) : GoesOn w i := by
  obtain ⟨file, hfile, hstream⟩ := hopen
  obtain ⟨r, st', hline⟩ := Stream.getline_isSome hout hready
  have hans : w.answer i 0 (fun _ => 0) (.getline (w.threads i).phSocketDataFile)
      = some (r, w.setStream file (some st')) := by
    simp [World.answer, hfile, hstream, hline]
  obtain ⟨-, hout', hpos, heof, hcases⟩ := Stream.getline_cases hline
  rcases hcases with ⟨rfl, -, -, -⟩ | ⟨line, rfl, hne, hinp⟩
  · apply goesOn_of 0 (fun _ => 0) (.endOfFile hpc) hans (.inr hm)
    rw [hpc]
    simp [Pc.left]
  · have hlen : 0 < line.length := List.length_pos_of_ne_nil hne
    have hstep : ThreadStep (w.threads i) (.getline (w.threads i).phSocketDataFile)
        (.bytes line) { w.threads i with pc := .send line 0 } := by
      have hread : ThreadStep (w.threads i) _ (.bytes line) _ := .line hpc
      rwa [Thread.sendLoop, if_pos hlen] at hread
    refine ⟨_, _, _, World.step_of hstep hans, World.answer_same hans _, .inr hm, ?_⟩
    refine left_lt_of_stream ?_ (current_of_opened hm ⟨file, hfile, hstream⟩)
      (current_of_opened hm (s := st') ?_) (.inr ⟨by rw [hout'], ?_⟩)
    · rw [World.setThread_self, hpc]
      rfl
    · rw [World.setThread_self]
      exact ⟨file, hfile, Function.update_self _ _ _⟩
    · have hsum := congrArg List.length hinp
      rw [List.length_append] at hsum
      rw [World.setThread_self, hpc]
      show Stream.rank _ w.driver.entries.flatten.length _ < _
      simp only [Stream.rank, Pc.unsent, hpos, heof]
      omega

/-- **A read**: no line is there yet. -/
theorem Serializes.goesOn_refill (h : Serializes chunks a₀ w a s) (hm : w.mutex = some i)
    (hpc : (w.threads i).pc = .getline) {st : Stream} {log₀ : CommandLog} {act : Action}
    {delivered : List UInt8} (hopen : Opened (w.threads i) w.streams st)
    {cut : List (List UInt8)} {fill : Nat → UInt8} (hcut : act.CutInto cut)
    (hlog : a.log = cut.foldl CommandLog.write log₀)
    (hread : Reading a.log (startPos log₀ fill act) st delivered)
    (hnl : newline ∉ st.inp) (heof : st.eof = false) : GoesOn w i := by
  obtain ⟨file, hfile, hstream⟩ := hopen
  obtain ⟨held, es, hr⟩ := h.tracks.ring
  have hne : a.log.stored ≠ [] ∨ startPos log₀ fill act = 0 := by
    rw [hlog]
    exact startPos_of_cut cut fill hcut
  obtain ⟨next, hnext, hread'⟩ :=
    hread.refill hr.contents_lt (startPos_range _ _ _) hne Nat.one_pos
  have hs : w.step (.refill i 1) = some (none, w.setStream file (some { st with
      fPos := st.fPos + next.length
      inp := st.inp ++ next
      eof := decide (next = []) })) := by
    simp [World.step, hfile, hstream, hpc, hread.out, hnl, heof, hr.aesdRead, hnext]
  refine ⟨_, _, _, hs, ⟨fun _ _ => rfl, fun _ _ => rfl, fun _ _ => rfl⟩, .inr hm, ?_⟩
  refine left_lt_of_stream rfl (current_of_opened hm ⟨file, hfile, hstream⟩)
    (current_of_opened hm ⟨file, hfile, Function.update_self _ _ _⟩) (.inr ⟨rfl, ?_⟩)
  -- what was read was before the position, and no more than there is
  have hpos := hread.fPos
  have hle := hread'.delivered_prefix.length_le
  have hcontents : w.driver.entries.flatten = a.log.contents := by
    rw [h.tracks.entries]
    rfl
  have hstart := startPos_range log₀ fill act
  show Stream.rank _ w.driver.entries.flatten.length (w.threads i).pc.unsent
    < Stream.rank _ _ (w.threads i).pc.unsent
  simp only [hcontents, Stream.rank, heof, List.length_append] at hle ⊢
  by_cases hnil : next = []
  · simp [hnil]
  · have hlen := List.length_pos_of_ne_nil hnil
    unfold CommandLog.readFrom at hle
    split at hle
    · simp only [List.length_nil] at hle
      omega
    · rw [List.length_drop] at hle
      simp only [hnil, decide_false, Bool.false_eq_true, if_false]
      omega

/-- **A write**: all that is printed goes out at once. -/
theorem Ongoing.goesOn_flush (h : Ongoing chunks a₀ w a s) (hf : Servable chunks a₀ n)
    (hm : w.mutex = some i) (hpc : (w.threads i).pc = .getline) {st : Stream}
    (hopen : Opened (w.threads i) w.streams st) {cut : List (List UInt8)}
    (htext : cut.flatten ++ st.out = (s.action i).text) (hne : st.out ≠ [])
    (hlog : a.log = cut.foldl CommandLog.write s.log) : GoesOn w i := by
  obtain ⟨file, hfile, hstream⟩ := hopen
  obtain ⟨acts, outs, hrun⟩ := h.serial
  -- what is printed and what is pending fit one allocation
  have hgot : ∀ j, (s.got j).flatten.length ≤ n := by
    intro j
    have hj := hf.sent j
    rw [← h.serializes.inbox j, List.flatten_append, List.length_append] at hj
    omega
  have hbefore := Serial.pending_le_of_run hrun hf.pending hgot
  have hpend := s.log.foldl_write_pending_le cut
  rw [← hlog] at hpend
  have hsum := congrArg List.length htext
  rw [List.length_append] at hsum
  have hle := h.serializes.text_length_le i
  have hsent := hf.sent i
  have hlimit := hf.limit
  have hsmall := hf.small
  have hpos := List.length_pos_of_ne_nil hne
  have hbound : st.out.length < 2 ^ 31 := by omega
  have hstored : writeOutcome a.limit a.log.pending.length ⟨st.out, hbound⟩ .quiet
      = .stored := by
    have hgrants : WriteEnv.quiet.kalloc.Grants a.limit
        (st.out.length + a.log.pending.length) := by
      refine .inr ⟨rfl, ?_⟩
      rw [h.serializes.limit]
      omega
    simp only [writeOutcome]
    rw [if_neg (by simp [WriteEnv.quiet]), if_pos hgrants, if_neg (by simp [WriteEnv.quiet])]
  have hwrite := LogState.write_stored hstored (h.serializes.buffer hf.buffer)
  have hlock := h.serializes.tracks.write ⟨st.out, hbound⟩ .quiet
  rw [hwrite] at hlock
  obtain ⟨driver, hdriver, -⟩ := hlock.of_some_right
  have hs : w.step (.flush i st.out.length .quiet) = some (none,
      ({ w with driver } : World ι).setStream file
        (some { st with out := st.out.drop st.out.length })) := by
    simpa [World.step, hfile, hstream, hpc, hpos, hdriver] using hbound
  refine ⟨_, _, _, hs, ⟨fun _ _ => rfl, fun _ _ => rfl, fun _ _ => rfl⟩, .inr hm, ?_⟩
  refine left_lt_of_stream rfl (current_of_opened hm ⟨file, hfile, hstream⟩)
    (current_of_opened hm ⟨file, hfile, Function.update_self _ _ _⟩) (.inl ?_)
  simpa using hpos

/-- **In its turn a thread goes on**, until it is done. -/
theorem Ongoing.goesOn (h : Ongoing chunks a₀ w a s) (hf : Servable chunks a₀ n)
    (hturn : w.Turn i) (hdone : (w.threads i).pc ≠ .done) : GoesOn w i := by
  cases hl : (w.threads i).pc.locked with
  | false =>
      rcases hturn with hm | hm
      · exact h.serializes.goesOn_outside hf hl hdone hm
      · have := (h.serializes.holder i).mp hm
        rw [hl] at this
        cases this
  | true =>
      have hm := (h.serializes.holder i).mpr hl
      by_cases hsend : ∃ line total, (w.threads i).pc = .send line total
      · obtain ⟨line, total, hpc⟩ := hsend
        exact h.serializes.goesOn_send hf hm hpc
      by_cases hpc : (w.threads i).pc = .getline
      · have hin := h.serializes.inside i hm
        unfold Within at hin
        rw [hpc] at hin
        obtain ⟨st, back, hopen, -, hcommit⟩ := hin
        cases hcommit with
        | printing cut htext hpieces hne hlog =>
            exact h.goesOn_flush hf hm hpc hopen htext hne hlog
        | reading cut fill hcut hlog hread =>
            by_cases hready : newline ∈ st.inp ∨ st.eof = true
            · exact goesOn_getline hm hpc hopen hread.out hready
            · obtain ⟨hnl, heof⟩ := not_or.mp hready
              exact h.serializes.goesOn_refill hm hpc hopen hcut hlog hread hnl
                (by simpa using heof)
      · exact h.serializes.goesOn_inside hm hpc fun line total hs => hsend ⟨line, total, hs⟩

/-- **A step** keeps to whole commits. -/
theorem Ongoing.step (h : Ongoing chunks a₀ w a s) {act : Act ι}
    {out : Option (ι × Call)} (hs : w.step act = some (out, w')) :
    ∃ a' s', Ongoing chunks a₀ w' a' s' := by
  obtain ⟨acts, outs, s', hrun, -, a', h'⟩ := h.serializes.step hs
  exact ⟨a', s', h.serial.trans ⟨acts, outs, hrun⟩, h'⟩

/-- **A thread can run to its end alone**, in its turn. -/
theorem Ongoing.finish_thread (h : Ongoing chunks a₀ w a s) (hf : Servable chunks a₀ n)
    (hturn : w.Turn i) :
    ∃ acts outs w', run World.step w acts = some (outs, w') ∧
      (w'.threads i).pc = .done ∧ w'.mutex = none ∧ SameElse i w w' ∧
      ∃ a' s', Ongoing chunks a₀ w' a' s' := by
  obtain ⟨acts, outs, w', hrun, hdone, hturn', hsame, a', s', h'⟩ :
      ∃ acts outs w', run World.step w acts = some (outs, w') ∧
        (w'.threads i).pc = .done ∧ w'.Turn i ∧ SameElse i w w' ∧
        ∃ a' s', Ongoing chunks a₀ w' a' s' := by
    refine run_terminates (r := (· < ·)) wellFounded_lt
      (I := fun w' m => (w'.Turn i ∧ SameElse i w w' ∧ ∃ a' s', Ongoing chunks a₀ w' a' s') ∧
        m = w'.left i)
      (F := fun w' => (w'.threads i).pc = .done ∧ w'.Turn i ∧ SameElse i w w' ∧
        ∃ a' s', Ongoing chunks a₀ w' a' s') ?_
      ⟨⟨hturn, ⟨fun _ _ => rfl, fun _ _ => rfl, fun _ _ => rfl⟩, a, s, h⟩, rfl⟩
    · rintro w₁ m ⟨⟨hturn₁, hsame₁, a₁, s₁, h₁⟩, rfl⟩ hF
      have hpc : (w₁.threads i).pc ≠ .done := fun hpc =>
        hF ⟨hpc, hturn₁, hsame₁, a₁, s₁, h₁⟩
      obtain ⟨act, out, w₂, hs, hsame₂, hturn₂, hlt⟩ := h₁.goesOn hf hturn₁ hpc
      refine ⟨act, out, w₂, _, hs, ⟨⟨hturn₂, ?_, h₁.step hs⟩, rfl⟩, hlt⟩
      constructor
      · intro j hj
        rw [hsame₂.threads j hj, hsame₁.threads j hj]
      · intro j hj
        rw [hsame₂.inbox j hj, hsame₁.inbox j hj]
      · intro j hj
        rw [hsame₂.outbox j hj, hsame₁.outbox j hj]
  refine ⟨acts, outs, w', hrun, hdone, ?_, hsame, a', s', h'⟩
  rcases hturn' with hm | hm
  · exact hm
  · have := (h'.serializes.holder i).mp hm
    rw [hdone] at this
    cases this

/-- **Any connections can finish**, one after the other: first the one whose
thread has the mutex. -/
theorem Ongoing.finish (h : Ongoing chunks a₀ w a s) (hf : Servable chunks a₀ n)
    (is : List ι) :
    ∃ acts outs w', run World.step w acts = some (outs, w') ∧ w'.mutex = none ∧
      (∀ i ∈ is, (w'.threads i).pc = .done) ∧ ∃ a' s', Ongoing chunks a₀ w' a' s' := by
  induction is with
  | nil =>
      cases hm : w.mutex with
      | none => exact ⟨[], [], w, rfl, hm, by simp, a, s, h⟩
      | some i =>
          obtain ⟨acts, outs, w', hrun, -, hfree, -, h'⟩ := h.finish_thread hf (.inr hm)
          exact ⟨acts, outs, w', hrun, hfree, by simp, h'⟩
  | cons i is ih =>
      obtain ⟨acts, outs, w₁, hrun, hfree, hall, a₁, s₁, h₁⟩ := ih
      obtain ⟨acts', outs', w', hrun', hdone, hfree', hsame, h'⟩ :=
        h₁.finish_thread hf (i := i) (.inl hfree)
      refine ⟨acts ++ acts', outs ++ outs', w', run_append.mpr ⟨_, _, _, hrun, hrun', rfl⟩,
        hfree', ?_, h'⟩
      intro j hj
      by_cases hji : j = i
      · rw [hji, hdone]
      · have hj' : j ∈ is := (List.mem_cons.mp hj).resolve_left hji
        rw [hsame.threads j hji, hall j hj']

/-- **A connection whose thread ended has sent everything.** -/
theorem World.step_drained {act : Act ι} {out : Option (ι × Call)}
    (h : ∀ i, (w.threads i).pc = .done → w.inbox i = [])
    (hs : w.step act = some (out, w')) (i : ι) (hdone : (w'.threads i).pc = .done) :
    w'.inbox i = [] := by
  cases act with
  | flush j count env =>
      simp only [World.step, Option.bind_eq_bind, Option.bind_eq_some_iff] at hs
      obtain ⟨file, -, st, -, hs⟩ := hs
      split at hs
      case isFalse => cases hs
      simp only [Option.bind_eq_some_iff] at hs
      obtain ⟨⟨ret, driver⟩, -, hs⟩ := hs
      split at hs <;> cases hs
      exact h i hdone
  | refill j count =>
      simp only [World.step, Option.bind_eq_bind, Option.bind_eq_some_iff] at hs
      obtain ⟨file, -, st, -, hs⟩ := hs
      split at hs
      case isFalse => cases hs
      simp only [Option.bind_eq_some_iff] at hs
      obtain ⟨⟨ret, data, fPos⟩, -, hs⟩ := hs
      cases hs
      exact h i hdone
  | call j count fill =>
      obtain ⟨call, r, w₁, t, hstep, hans, rfl, rfl⟩ := World.step_call hs
      by_cases hij : i = j
      · subst hij
        rw [World.setThread_self] at hdone
        have hexits := (Thread.step_done_iff hstep).mp hdone
        cases Thread.step_cases hstep with
        | ended hpc hn =>
            -- the client had nothing left to send
            simp only [World.answer] at hans
            split at hans <;> cases hans
            assumption
        | noAddress hpc | noMemory hpc => cases hans
        | address hpc | received hpc | reallocated hpc | locked hpc | notOpened hpc
        | opened hpc | printed hpc | number hpc | sought hpc | endOfFile hpc | line hpc
        | notSent hpc | sent hpc | fileClosed hpc | unlocked hpc =>
            rw [hpc] at hexits
            cases hexits
      · have hsame := World.answer_same hans t
        rw [hsame.threads i hij] at hdone
        rw [hsame.inbox i hij]
        exact h i hdone

end

/-! ## Runs -/

/-- A device that calls without a failed allocation lead to can serve. -/
theorem servable_of_run {ι : Type} {limit n : Nat} {fPos : Nat → Int} {ops : List Op}
    {rs : List Reply} {d : Device} {b : LogDevice} {chunks : ι → List (List UInt8)}
    (hb : run LogDevice.step (.init limit fPos) ops = some (rs, b)) (hbt : DeviceTracks d b)
    (hmem : ∀ r ∈ rs, r.ret ≠ -eNoMem)
    (hpend : d.driver.aesdDevice.writeBufferSize ≤ n) (hlimit : 2 * n ≤ limit)
    (hsmall : 10 * limit < 2 ^ 31)
    (hsizes : ∀ i, ∀ c ∈ chunks i, 0 < c.length ∧ c.length ≤ recvBufLen - 1)
    (hcount : ∀ i, allocated (chunks i) < 2 ^ 31)
    (hsent : ∀ i, (chunks i).flatten.length ≤ n) : Servable chunks b.state n := by
  have hblimit := run_limit hb
  refine ⟨hsizes, hcount, run_buffer hb hmem, hsent, ?_, ?_, ?_⟩
  · rw [← hbt.state.size]
    exact hpend
  · rw [hblimit]
    exact hlimit
  · rw [hblimit]
    exact hsmall

section
variable {ι : Type} [DecidableEq ι]

/-- **Any traffic can be served to its end.** Take any reachable device on which
no allocation failed, and any number of connections, sending anything that
`recv` can give them in chunks; no connection sends more than `n` bytes, and at
most `n` are pending. If `2 * n` bytes fit one allocation, and ten commands an
`int`, every run of threads whose calls succeed can go on until the mutex is
free and any given connections are at their end. Then every chunk
they sent was handled: the commits made for each of them are those of all it
sent, once and in its order, and the device was given the texts of the commits
whole and one after the other. -/
theorem traffic_finishes (limit : Nat) (hl : limit ≤ 2 ^ 56) (fPos : Nat → Int)
    {ops : List Op} {rs : List Reply} {d : Device}
    (h : run Device.step (.init limit hl fPos) ops = some (rs, d))
    (hmem : ∀ r ∈ rs, r.ret ≠ -eNoMem) (n : Nat)
    (hpend : d.driver.aesdDevice.writeBufferSize ≤ n) (hlimit : 2 * n ≤ limit)
    (hsmall : 10 * limit < 2 ^ 31) (chunks : ι → List (List UInt8))
    (hsizes : ∀ i, ∀ c ∈ chunks i, 0 < c.length ∧ c.length ≤ recvBufLen - 1)
    (hcount : ∀ i, allocated (chunks i) < 2 ^ 31)
    (hsent : ∀ i, (chunks i).flatten.length ≤ n)
    {acts : List (Act ι)} {outs : List (Option (ι × Call))} {w : World ι}
    (hrun : run World.step (.init d.driver chunks) acts = some (outs, w)) (is : List ι) :
    ∃ acts' outs' w', run World.step w acts' = some (outs', w') ∧ w'.mutex = none ∧
      (∀ i ∈ is, (w'.threads i).pc = .done) ∧
      ∃ (made : List (ι × Action)) (a : LogState), Tracks w'.driver a ∧
        a.log.bytes
          = (commandLog (accepted ops rs)).bytes ++ made.flatMap (fun c => c.2.text) ∧
        made.map Prod.fst = (outs ++ outs').flatMap gaveBack ∧
        ∀ i ∈ is, (made.filter fun c => c.1 = i).map Prod.snd
          = (session (chunks i)).handled.flatten := by
  obtain ⟨b, hb, hbt, hlog⟩ := run_tracks h
  obtain ⟨acts₁, outs₁, s, a, hserial, -, ha⟩ := run_serializes hbt.state hrun
  have hf : Servable chunks b.state n :=
    servable_of_run hb hbt hmem hpend hlimit hsmall hsizes hcount hsent
  obtain ⟨acts', outs', w', hrun', hfree, hdone, -⟩ :=
    Ongoing.finish ⟨⟨acts₁, outs₁, hserial⟩, ha⟩ hf is
  -- the whole run, as whole commits
  have hwhole : run World.step (.init d.driver chunks) (acts ++ acts')
      = some (outs ++ outs', w') := run_append.mpr ⟨_, _, _, hrun, hrun', rfl⟩
  have hdrained := run_invariant
    (I := fun w : World ι => ∀ i, (w.threads i).pc = .done → w.inbox i = [])
    (fun w act out w' hw hs => World.step_drained hw hs) (fun i hi => by cases hi) hwhole
  obtain ⟨acts₂, outs₂, s', a', hserial', hseen, ha'⟩ := run_serializes hbt.state hwhole
  refine ⟨acts', outs', w', hrun', hfree, hdone, commits outs₂, a', ha'.tracks, ?_, hseen, ?_⟩
  · rw [ha'.free hfree, Serial.bytes_of_run hserial', hlog]
  · intro i hi
    have hmade := (Serial.done_of_run hserial' i).commits
    have hgot := ha'.inbox i
    have hdue : s'.due i = false := by
      rw [ha'.due i, hdone i hi]
      rfl
    rw [hdrained i (hdone i hi), List.append_nil] at hgot
    rw [hdue, hgot] at hmade
    exact hmade

end

/-- Two clients, one with a line and one with a seek command that has no
numbers. -/
def lineAndSeek : Bool → List (List UInt8)
  | false => [[97, newline]]
  | true => [aesdcharIocseektoCmdStr ++ [newline]]

theorem traffic_finishes_line_and_seek : ∃ acts outs w,
    run World.step (.init (aesdInitModule 4096 (by decide)) lineAndSeek) acts = some (outs, w) ∧
      ∀ i, (w.threads i).pc = .done := by
  have hinit : run Device.step (.init 4096 (by decide) fun _ => 0) []
      = some ([], .init 4096 (by decide) fun _ => 0) := rfl
  obtain ⟨acts, outs, w, hrun, -, hdone, -⟩ :=
    traffic_finishes 4096 (by decide) (fun _ => 0) hinit (by simp) 99 (by decide) (by decide)
      (by decide) lineAndSeek (fun i => by cases i <;> decide +kernel)
      (fun i => by cases i <;> decide +kernel) (fun i => by cases i <;> decide +kernel)
      (run_nil _) [false, true]
  exact ⟨acts, outs, w, hrun, fun i => hdone i (by cases i <;> simp)⟩

end Aesd.Server
