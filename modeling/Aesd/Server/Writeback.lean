import Aesd.Server.Thread
import Aesd.Lib.Machine

/-!
# Sending the file back

`writeback` of `server/aesdsocket.c` on its own: `getline` in a loop, and for
each line `send` in a loop. What is left of the file is part of the state, the
results of `send` are inputs, and the output of a step is what the socket
accepted. However the sends go, what was accepted is a part of the file from
its start, and all of it if none fails (`writeback_sends`).
-/

namespace Aesd.Server

open Aesd.Lib Aesd.Driver

/-- The call `writeback` waits for, with the locals of the inner loop, or its
return value. -/
inductive WritebackPc where
  | getline
  | send (pLine : List UInt8) (totalBytesWritten : Nat)
  | returned (bStatus : Bool)
  deriving DecidableEq, Repr

/-- `writeback`, and what is between the stream's position and the end of the
file. -/
structure Writeback where
  pc : WritebackPc
  rest : List UInt8
  deriving DecidableEq, Repr

/-- A call returns: `getline`, or `send` with its result. -/
inductive WritebackAct where
  | getline
  | send (bytesWritten : Int)
  deriving DecidableEq, Repr

/-- `writeback` is called. -/
def Writeback.start (content : List UInt8) : Writeback := ⟨.getline, content⟩

/-- The head of the inner loop. -/
def Writeback.sendLoop (w : Writeback) (pLine : List UInt8) (totalBytesWritten : Nat) :
    Writeback :=
  { w with pc :=
      if totalBytesWritten < pLine.length then .send pLine totalBytesWritten else .getline }

/-- The line `getline` stores: up to the next newline, or all there is. -/
def Writeback.line (w : Writeback) : List UInt8 := w.rest.take (w.rest.idxOf newline + 1)

/-- One call. `b_status` and `b_send_fail` change together, and end both
loops. -/
def Writeback.step (w : Writeback) (act : WritebackAct) : Option (List UInt8 × Writeback) :=
  match w.pc, act with
  | .getline, .getline =>
      if w.rest = [] then some ([], { w with pc := .returned true })
      else some ([], { w with rest := w.rest.drop w.line.length }.sendLoop w.line 0)
  | .send pLine total, .send n =>
      if n = -1 then some ([], { w with pc := .returned false })
      -- `send` takes no more than it is offered; the counter is an `int`
      else if 0 ≤ n ∧ total + n ≤ pLine.length ∧ total + n < 2 ^ 31 then
        some ((pLine.drop total).take n.toNat, w.sendLoop pLine (total + n.toNat))
      else none
  | _, _ => none

/-! ## What a step can do -/

/-- A step of `writeback`, by the call and its result. -/
inductive WritebackStep (w : Writeback) : WritebackAct → List UInt8 → Writeback → Prop where
  | endOfFile (hpc : w.pc = .getline) (hrest : w.rest = []) :
      WritebackStep w .getline [] { w with pc := .returned true }
  | line (hpc : w.pc = .getline) (hrest : w.rest ≠ []) :
      WritebackStep w .getline [] ⟨.send w.line 0, w.rest.drop w.line.length⟩
  | notSent {pLine : List UInt8} {total : Nat} (hpc : w.pc = .send pLine total) :
      WritebackStep w (.send (-1)) [] { w with pc := .returned false }
  | sent {pLine : List UInt8} {total n : Nat} (hpc : w.pc = .send pLine total)
      (hle : total + n ≤ pLine.length) (hlt : total + n < 2 ^ 31) :
      WritebackStep w (.send n) ((pLine.drop total).take n) (w.sendLoop pLine (total + n))

section
variable {w w' : Writeback} {act : WritebackAct} {out : List UInt8}

/-- A line is not empty before the end of the file. -/
theorem Writeback.line_length_pos (h : w.rest ≠ []) : 0 < w.line.length := by
  have hpos := List.length_pos_of_ne_nil h
  rw [Writeback.line, List.length_take]
  omega

/-- The line and what comes after it. -/
theorem Writeback.line_append_drop (w : Writeback) :
    w.line ++ w.rest.drop w.line.length = w.rest := by
  have hpre : w.line <+: w.rest := List.take_prefix _ _
  conv_rhs => rw [← List.take_append_drop w.line.length w.rest]
  rw [← List.prefix_iff_eq_take.mp hpre]

/-- **A step of `writeback`** is one of these. -/
theorem Writeback.step_cases (hs : w.step act = some (out, w')) :
    WritebackStep w act out w' := by
  unfold Writeback.step at hs
  cases hpc : w.pc <;> rw [hpc] at hs <;> cases act
  case getline.getline =>
    dsimp only at hs
    split at hs
    · rename_i hrest
      cases hs
      exact .endOfFile hpc hrest
    · rename_i hrest
      rw [Writeback.sendLoop, if_pos (Writeback.line_length_pos hrest)] at hs
      cases hs
      exact .line hpc hrest
  case send.send pLine total n =>
    dsimp only at hs
    split at hs
    · rename_i hn
      subst hn
      cases hs
      exact .notSent hpc
    · split at hs <;> cases hs
      rename_i hn
      obtain ⟨n, rfl⟩ := Int.eq_ofNat_of_zero_le hn.1
      exact .sent hpc (by omega) (by omega)
  all_goals cases hs

theorem WritebackStep.step (hs : WritebackStep w act out w') :
    w.step act = some (out, w') := by
  unfold Writeback.step
  cases hs with
  | endOfFile hpc hrest =>
      rw [hpc]
      exact if_pos hrest
  | line hpc hrest =>
      rw [hpc]
      dsimp only
      rw [if_neg hrest, Writeback.sendLoop, if_pos (Writeback.line_length_pos hrest)]
  | notSent hpc =>
      rw [hpc]
      rfl
  | sent hpc hle hlt =>
      rw [hpc]
      dsimp only
      rw [if_neg (by omega), if_pos (by omega), Int.toNat_natCast]

end

/-! ## In the thread -/

/-- Where the thread is while `writeback` runs in it. -/
def WritebackPc.pc : WritebackPc → Pc
  | .getline => .getline
  | .send pLine total => .send pLine total
  | .returned _ => .fclose

/-- What the thread's call returns. -/
def Writeback.resp (w : Writeback) : WritebackAct → Resp
  | .getline => if w.rest = [] then .int (-1) else .bytes w.line
  | .send n => .int n

/-- What the socket accepted in a call. -/
def accepted : Call × Resp → List UInt8
  | (.send bytes, .int n) => bytes.take n.toNat
  | _ => []

section
variable {w w' : Writeback} {act : WritebackAct} {out : List UInt8} {t : Thread}

/-- **A step of `writeback` is one of the thread.** -/
theorem WritebackStep.thread (hs : WritebackStep w act out w') (hpc : t.pc = w.pc.pc) :
    ∃ call, t.step (w.resp act) = some (call, { t with pc := w'.pc.pc }) ∧
      accepted (call, w.resp act) = out := by
  cases hs with
  | endOfFile hw hrest =>
      rw [hw] at hpc
      rw [Writeback.resp, if_pos hrest]
      exact ⟨_, (ThreadStep.endOfFile hpc).step, rfl⟩
  | line hw hrest =>
      rw [hw] at hpc
      rw [Writeback.resp, if_neg hrest]
      have hstep := (show ThreadStep t _ (.bytes w.line) _ from .line hpc).step
      rw [Thread.sendLoop, if_pos (Writeback.line_length_pos hrest)] at hstep
      exact ⟨_, hstep, rfl⟩
  | notSent hw =>
      rw [hw] at hpc
      exact ⟨_, (ThreadStep.notSent hpc).step, rfl⟩
  | @sent pLine total n hw hle hlt =>
      rw [hw] at hpc
      have hstep := (ThreadStep.sent (n := n) hpc (by omega)).step
      refine ⟨.send (pLine.drop total), hstep.trans ?_, rfl⟩
      rw [Int.toNat_natCast, Thread.sendLoop, Writeback.sendLoop]
      split <;> rfl

theorem writeback_in_thread {acts : List WritebackAct} {outs : List (List UInt8)}
    (h : run Writeback.step w acts = some (outs, w')) (hpc : t.pc = w.pc.pc) :
    ∃ resps calls, run Thread.step t resps = some (calls, { t with pc := w'.pc.pc }) ∧
      (calls.zip resps).map accepted = outs := by
  induction acts generalizing w t outs with
  | nil =>
      cases h
      exact ⟨[], [], by rw [← hpc]; rfl, rfl⟩
  | cons act acts ih =>
      obtain ⟨out, u, outs, hs, hrun, rfl⟩ := run_cons.mp h
      obtain ⟨call, hstep, haccepted⟩ := (Writeback.step_cases hs).thread hpc
      obtain ⟨resps, calls, hrest, hall⟩ := ih (t := { t with pc := u.pc.pc }) hrun rfl
      refine ⟨w.resp act :: resps, call :: calls,
        run_cons.mpr ⟨call, _, calls, hstep, hrest, rfl⟩, ?_⟩
      rw [List.zip_cons_cons, List.map_cons, haccepted, hall]

end

/-! ## What was accepted -/

/-- Each line, with its newline, is shorter than `2 ^ 31` bytes. -/
def ShortLines (content : List UInt8) : Prop :=
  ∀ line, line <:+: content → newline ∉ line.dropLast → line.length < 2 ^ 31

/-- What is left to accept. -/
def Writeback.unsent (w : Writeback) : List UInt8 :=
  match w.pc with
  | .getline => w.rest
  | .send pLine total => pLine.drop total ++ w.rest
  | .returned _ => []

/-- How many calls are left at most. -/
def Writeback.callsLeft (w : Writeback) : Nat :=
  match w.pc with
  | .getline => 2 * w.rest.length + 1
  | .send _ _ => 2 * w.unsent.length
  | .returned _ => 0

/-- `writeback` of `content` after some calls, with `sent` accepted so far. -/
structure WrittenBack (content : List UInt8) (acts : List WritebackAct) (sent : List UInt8)
    (w : Writeback) : Prop where
  calls : acts.length ≤ 2 * content.length + 1
  goesOn : (∃ b, w.pc = .returned b) ∨ (∃ out w', w.step .getline = some (out, w')) ∨
    ∃ pLine total, w.pc = .send pLine total ∧ 0 < (pLine.drop total).length ∧
      ∀ n : Int, n = -1 ∨ 0 < n ∧ n ≤ (pLine.drop total).length →
        ∃ out w', w.step (.send n) = some (out, w')
  returned : .send (-1) ∉ acts → ∀ b, w.pc = .returned b → b = true ∧ sent = content
  failed : .send (-1) ∈ acts → w.pc = .returned false ∧ sent <+: content ∧
    ∃ before, acts = before ++ [.send (-1)] ∧ .send (-1) ∉ before
  stops : ∀ b, w.pc = .returned b → ∀ act, w.step act = none

/-- Where `writeback` is after some calls. -/
structure Underway (content : List UInt8) (acts : List WritebackAct) (sent : List UInt8)
    (w : Writeback) : Prop where
  calls : acts.length + w.callsLeft ≤ 2 * content.length + 1
  sent : match w.pc with
    | .getline => sent ++ w.rest = content ∧ .send (-1) ∉ acts
    | .send pLine total => sent ++ (pLine.drop total ++ w.rest) = content ∧
        total < pLine.length ∧ pLine.length < 2 ^ 31 ∧ .send (-1) ∉ acts
    | .returned true => sent = content ∧ .send (-1) ∉ acts
    | .returned false => sent <+: content ∧
        ∃ before, acts = before ++ [.send (-1)] ∧ .send (-1) ∉ before

section
variable {content sent out : List UInt8} {acts : List WritebackAct} {act : WritebackAct}
  {w w' : Writeback}

theorem underway_start (content : List UInt8) : Underway content [] [] (.start content) :=
  ⟨by simp [Writeback.start, Writeback.callsLeft], rfl, by simp⟩

theorem Writeback.line_length_lt (hlines : ShortLines content) (h : w.rest <:+ content) :
    w.line.length < 2 ^ 31 := by
  refine hlines _ ((List.take_prefix _ _).isInfix.trans h.isInfix) fun hmem => ?_
  -- the line ends at the first newline
  rw [List.dropLast_eq_take, Writeback.line, List.take_take] at hmem
  have hlt := (List.mem_take_iff_idxOf_lt (List.mem_of_mem_take hmem)).mp hmem
  rw [List.length_take] at hlt
  omega

theorem Writeback.sendLoop_unsent (w : Writeback) (pLine : List UInt8) (total : Nat) :
    (w.sendLoop pLine total).unsent = pLine.drop total ++ w.rest := by
  by_cases hmore : total < pLine.length
  · simp [Writeback.sendLoop, Writeback.unsent, hmore]
  · simp [Writeback.sendLoop, Writeback.unsent, hmore,
      List.drop_eq_nil_iff.mpr (Nat.not_lt.mp hmore)]

theorem Writeback.sendLoop_callsLeft_le (w : Writeback) (pLine : List UInt8) (total : Nat) :
    (w.sendLoop pLine total).callsLeft ≤ 2 * (pLine.drop total ++ w.rest).length + 1 := by
  rw [← Writeback.sendLoop_unsent]
  by_cases hmore : total < pLine.length <;>
    simp [Writeback.sendLoop, Writeback.callsLeft, Writeback.unsent, hmore]

/-- What a call does not take from what is left stays, unless it fails. -/
theorem WritebackStep.unsent (hs : WritebackStep w act out w') (hok : act ≠ .send (-1)) :
    out ++ w'.unsent = w.unsent := by
  cases hs with
  | endOfFile hpc hrest => simp [Writeback.unsent, hpc, hrest]
  | line hpc hrest => simp [Writeback.unsent, hpc, Writeback.line_append_drop]
  | notSent hpc => exact absurd rfl hok
  | sent hpc hle hlt =>
      rw [Writeback.sendLoop_unsent, Writeback.unsent, hpc]
      dsimp only
      rw [← List.drop_drop, ← List.append_assoc, List.take_append_drop]

theorem WritebackStep.callsLeft_lt (hs : WritebackStep w act out w') (hact : act ≠ .send 0)
    (htotal : ∀ pLine total, w.pc = .send pLine total → total < pLine.length) :
    w'.callsLeft < w.callsLeft := by
  cases hs with
  | endOfFile hpc hrest => simp [Writeback.callsLeft, hpc]
  | line hpc hrest =>
      simp [Writeback.callsLeft, Writeback.unsent, hpc, Writeback.line_append_drop]
  | @notSent pLine total hpc =>
      have := htotal pLine total hpc
      simp only [Writeback.callsLeft, Writeback.unsent, hpc, List.length_append,
        List.length_drop]
      omega
  | @sent pLine total n hpc hle hlt =>
      have htotal := htotal pLine total hpc
      have hle := w.sendLoop_callsLeft_le pLine (total + n)
      have hn : n ≠ 0 := by
        rintro rfl
        exact hact rfl
      simp only [Writeback.callsLeft, Writeback.unsent, hpc, List.length_append,
        List.length_drop] at hle ⊢
      omega

/-- Until it returned, and when it returned `true`, no send failed. -/
theorem Underway.unsent (h : Underway content acts sent w) (hpc : w.pc ≠ .returned false) :
    sent ++ w.unsent = content ∧ .send (-1) ∉ acts := by
  obtain ⟨-, hsent⟩ := h
  unfold Writeback.unsent
  cases hw : w.pc with
  | getline =>
      rw [hw] at hsent
      exact hsent
  | send pLine total =>
      rw [hw] at hsent
      exact ⟨hsent.1, hsent.2.2.2⟩
  | returned b =>
      rw [hw] at hsent hpc
      cases b with
      | true => simpa using hsent
      | false => exact absurd rfl hpc

theorem Underway.step (h : Underway content acts sent w) (hlines : ShortLines content)
    (hact : act ≠ .send 0) (hs : w.step act = some (out, w')) :
    Underway content (acts ++ [act]) (sent ++ out) w' := by
  have hw := Writeback.step_cases hs
  have hcalls : (acts ++ [act]).length + w'.callsLeft ≤ 2 * content.length + 1 := by
    have hlt : w'.callsLeft < w.callsLeft := by
      refine hw.callsLeft_lt hact fun pLine total hpc => ?_
      have := h.sent
      rw [hpc] at this
      exact this.2.1
    have := h.calls
    rw [List.length_append, List.length_singleton]
    omega
  have hpc : w.pc ≠ .returned false := by
    intro hpc
    cases hw <;> simp_all
  obtain ⟨hsplit, hfail⟩ := h.unsent hpc
  have hgoes : act ≠ .send (-1) →
      sent ++ out ++ w'.unsent = content ∧ .send (-1) ∉ acts ++ [act] := by
    intro hok
    rw [List.append_assoc, hw.unsent hok, List.mem_append, List.mem_singleton, not_or]
    exact ⟨hsplit, hfail, fun he => hok he.symm⟩
  refine ⟨hcalls, ?_⟩
  cases hw with
  | endOfFile hpc hrest =>
      obtain ⟨hgo, hfail⟩ := hgoes (by simp)
      exact ⟨by simpa [Writeback.unsent] using hgo, hfail⟩
  | line hpc hrest =>
      obtain ⟨hgo, hfail⟩ := hgoes (by simp)
      rw [Writeback.unsent, hpc] at hsplit
      exact ⟨hgo, Writeback.line_length_pos hrest,
        Writeback.line_length_lt hlines ⟨sent, hsplit⟩, hfail⟩
  | notSent hpc =>
      rw [List.append_nil]
      exact ⟨⟨_, hsplit⟩, acts, rfl, hfail⟩
  | @sent pLine total n hpc hle hlt =>
      obtain ⟨hgo, hfail⟩ := hgoes (by simp)
      have hshort := h.sent
      rw [hpc] at hshort
      rw [Writeback.sendLoop_unsent] at hgo
      unfold Writeback.sendLoop
      by_cases hmore : total + n < pLine.length
      · rw [if_pos hmore]
        exact ⟨hgo, hmore, hshort.2.2.1, hfail⟩
      · rw [if_neg hmore]
        rw [List.drop_eq_nil_iff.mpr (Nat.not_lt.mp hmore), List.nil_append] at hgo
        exact ⟨hgo, hfail⟩

theorem Underway.writtenBack (h : Underway content acts sent w) :
    WrittenBack content acts sent w := by
  obtain ⟨hcalls, hsent⟩ := h
  have hbound : acts.length ≤ 2 * content.length + 1 := by omega
  cases hpc : w.pc with
  | getline =>
      rw [hpc] at hsent
      refine ⟨hbound, .inr (.inl ?_), fun _ b hb => ?_, fun hf => absurd hf hsent.2,
        fun b hb => ?_⟩
      · by_cases hrest : w.rest = []
        · exact ⟨_, _, (WritebackStep.endOfFile hpc hrest).step⟩
        · exact ⟨_, _, (WritebackStep.line hpc hrest).step⟩
      all_goals
        rw [hpc] at hb
        cases hb
  | send pLine total =>
      rw [hpc] at hsent
      obtain ⟨-, htotal, hshort, hfail⟩ := hsent
      refine ⟨hbound, .inr (.inr ⟨pLine, total, hpc, ?_, fun n hn => ?_⟩), fun _ b hb => ?_,
        fun hf => absurd hf hfail, fun b hb => ?_⟩
      · rw [List.length_drop]
        omega
      · rw [List.length_drop] at hn
        rcases hn with rfl | ⟨hpos, hle⟩
        · exact ⟨_, _, (WritebackStep.notSent hpc).step⟩
        · obtain ⟨n, rfl⟩ := Int.eq_ofNat_of_zero_le (Int.le_of_lt hpos)
          exact ⟨_, _, (WritebackStep.sent hpc (by omega) (by omega)).step⟩
      all_goals
        rw [hpc] at hb
        cases hb
  | returned b =>
      rw [hpc] at hsent
      have hstops : ∀ c, w.pc = .returned c → ∀ act, w.step act = none := by
        intro c _ act
        unfold Writeback.step
        rw [hpc]
      cases b with
      | true =>
          refine ⟨hbound, .inl ⟨true, hpc⟩, fun _ b hb => ?_, fun hf => absurd hf hsent.2, hstops⟩
          rw [hpc] at hb
          cases hb
          exact ⟨rfl, hsent.1⟩
      | false =>
          obtain ⟨hpart, hlast⟩ := hsent
          refine ⟨hbound, .inl ⟨false, hpc⟩, fun hf b hb => ?_, fun _ => ⟨hpc, hpart, hlast⟩,
            hstops⟩
          obtain ⟨before, rfl, -⟩ := hlast
          simp at hf

/-- **Write-back sends the rest of the file exactly.** However the sends go, it
ends; if none fails it has sent all of the file and returns `true`, and if one
fails it has sent a part from the start, stops there and returns `false`. -/
theorem writeback_sends (hlines : ShortLines content) {outs : List (List UInt8)}
    (hacts : .send 0 ∉ acts)
    (h : run Writeback.step (.start content) acts = some (outs, w)) :
    WrittenBack content acts outs.flatten w := by
  suffices hu : Underway content acts outs.flatten w from hu.writtenBack
  revert hacts
  refine run_history (P := fun acts outs w => .send 0 ∉ acts →
    Underway content acts outs.flatten w) (fun _ => underway_start content) ?_ h
  intro acts outs w act out w' _ ih hs hacts
  rw [List.mem_append, not_or] at hacts
  rw [List.flatten_concat]
  refine (ih hacts.1).step hlines (fun he => hacts.2 ?_) hs
  rw [he]
  exact List.mem_singleton.mpr rfl

end

/-- A line in two sends, one in one, and the end. -/
theorem writeback_sends_two_lines : ∃ outs w,
    run Writeback.step (.start [97, 98, newline, 99])
      [.getline, .send 1, .send 2, .getline, .send 1, .getline] = some (outs, w) ∧
    WrittenBack [97, 98, newline, 99]
      [.getline, .send 1, .send 2, .getline, .send 1, .getline] outs.flatten w := by
  have hshort : ShortLines [97, 98, newline, 99] := by
    intro line hline _
    have hle := hline.length_le
    simp only [List.length_cons, List.length_nil] at hle
    omega
  exact ⟨_, _, rfl, writeback_sends hshort (by decide) rfl⟩

end Aesd.Server
