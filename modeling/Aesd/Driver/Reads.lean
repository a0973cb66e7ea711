import Aesd.Driver.WriteRuns

/-!
# Reads

What a reader gets, over runs that interleave writes and reads of any files
(`reads_slice_history`): slices of the history of all committed bytes, and
from position 0, as long as nothing is evicted, the contents from their
start. And where a read stays inside a stored command
(`read_inside_iff`): on an empty ring, only at position 0.
-/

namespace Aesd.Driver

open Aesd.Lib

/-! ## One read -/

section
variable (log : CommandLog) {fPos : Int} (count : Nat) {env : CallEnv}

/-- **A read inside the contents** returns what is left of one command, up to
`count`. -/
theorem readResult_inside (hint : env.interrupted = false) (hfault : env.fault = false)
    (hlen : log.contents.length < 2 ^ 60) (h0 : 0 ≤ fPos)
    (hlt : fPos < log.contents.length) :
    ∃ before command after, log.stored = before ++ command :: after ∧
      before.flatten.length ≤ fPos.toNat ∧
      fPos.toNat < before.flatten.length + command.length ∧
      let n := min count (before.flatten.length + command.length - fPos.toNat)
      readResult log.stored fPos count env
        = some ((n : Int), (log.contents.drop fPos.toNat).take n, fPos + n) := by
  obtain ⟨p, rfl⟩ := Int.eq_ofNat_of_zero_le h0
  have hp : p < (log.stored.map List.length).sum := by
    have hlt' : p < log.contents.length := by omega
    rwa [CommandLog.contents, List.length_flatten] at hlt'
  have hu : toU64 (p : Int) = p := toU64_natCast (by omega)
  obtain ⟨i, k, hl⟩ := locate_isSome hp
  obtain ⟨-, -, hsum⟩ := locate_spec hl
  obtain ⟨hi, hk, hdrop⟩ := drop_flatten_of_locate hl
  have hbefore : (log.stored.take i).flatten.length + k = p := by
    rw [List.length_flatten, List.map_take]
    exact hsum
  have hsplit : log.stored = log.stored.take i ++ log.stored[i] :: log.stored.drop (i + 1) := by
    rw [← List.drop_eq_getElem_cons, List.take_append_drop]
  have hne : log.stored ≠ [] := by
    intro h
    rw [h] at hp
    simp at hp
  refine ⟨log.stored.take i, log.stored[i], log.stored.drop (i + 1), hsplit,
    by simp; omega, by simp; omega, ?_⟩
  have hn : min count ((log.stored.take i).flatten.length + (log.stored[i]).length - p)
      = (((log.stored[i]).drop k).take count).length := by
    rw [List.length_take, List.length_drop]
    omega
  have hdata : (log.contents.drop p).take (((log.stored[i]).drop k).take count).length
      = ((log.stored[i]).drop k).take count := by
    rw [CommandLog.contents, hdrop, List.take_append_of_le_length (by simp),
      List.length_take, ← List.take_eq_take_min]
  have hle : (((log.stored[i]).drop k).take count).length ≤ log.contents.length := by
    rw [← hdata]
    simp
  have hto : toI64 ((p : Int) + (((log.stored[i]).drop k).take count).length)
      = (p : Int) + (((log.stored[i]).drop k).take count).length :=
    toI64_of_range (by omega) (by omega)
  simp only [Int.toNat_natCast, hn, hdata]
  simp only [readResult, hint, hfault, hu, hl, Bool.false_eq_true, Bool.false_and,
    if_false, if_neg hne, List.getElem?_eq_getElem hi, Option.getD_some, hto]

/-- A read outside the contents returns nothing; on an empty ring it is
defined at position 0. -/
theorem readResult_outside (hint : env.interrupted = false)
    (hout : log.contents.length ≤ toU64 fPos) (hne : log.stored ≠ [] ∨ fPos = 0) :
    readResult log.stored fPos count env = some (0, [], fPos) := by
  by_cases hnil : log.stored = []
  · have hfPos : fPos = 0 := hne.resolve_left fun h => h hnil
    simp only [readResult, hint, hnil, hfPos]
    rfl
  · have hl : locate (log.stored.map List.length) (toU64 fPos) = none := by
      rw [locate_eq_none_iff, ← List.length_flatten]
      exact hout
    simp [readResult, hint, hnil, hl]

/-- What a reader at `pos` has before it. -/
def CommandLog.readFrom (log : CommandLog) (pos : Int) : List UInt8 :=
  if pos < 0 then [] else log.contents.drop pos.toNat

theorem readFrom_add {start : Int} {delivered : List UInt8}
    (h : delivered <+: log.readFrom start) :
    log.readFrom start = delivered ++ log.readFrom (start + delivered.length) := by
  obtain ⟨tail, htail⟩ := h
  rw [← htail, List.append_cancel_left_eq]
  unfold CommandLog.readFrom at htail ⊢
  split at htail
  · -- nothing was before it
    rename_i hneg
    obtain ⟨rfl, rfl⟩ := List.append_eq_nil_iff.mp htail
    simp [hneg]
  · rw [if_neg (by omega), show (start + delivered.length).toNat
      = start.toNat + delivered.length by omega, ← List.drop_drop, ← htail, List.drop_left]

theorem readFrom_length_le (pos : Int) :
    (log.readFrom pos).length ≤ log.contents.length := by
  unfold CommandLog.readFrom
  split <;> simp

/-- **A read gives what comes next**, and nothing only at the end. -/
theorem readResult_next (hint : env.interrupted = false) (hfault : env.fault = false)
    (hlen : log.contents.length < 2 ^ 60) (hmin : -2 ^ 62 ≤ fPos) (hmax : fPos ≤ 2 ^ 62)
    (hne : log.stored ≠ [] ∨ fPos = 0) :
    ∃ next : List UInt8, readResult log.stored fPos count env
        = some ((next.length : Int), next, fPos + next.length) ∧
      next <+: log.readFrom fPos ∧
      (0 < count → (next = [] ↔ log.readFrom fPos = [])) := by
  by_cases hin : 0 ≤ fPos ∧ fPos < log.contents.length
  · obtain ⟨before, command, after, hsplit, -, hlt, hread⟩ :=
      readResult_inside log count hint hfault hlen hin.1 hin.2
    have hfrom : log.readFrom fPos = log.contents.drop fPos.toNat := if_neg (by omega)
    have hcontents : before.flatten.length + command.length ≤ log.contents.length := by
      rw [CommandLog.contents, hsplit]
      simp
    generalize hn : min count (before.flatten.length + command.length - fPos.toNat) = n
      at hread
    have hnlen : ((log.contents.drop fPos.toNat).take n).length = n := by
      rw [List.length_take, List.length_drop]
      omega
    rw [hfrom]
    refine ⟨(log.contents.drop fPos.toNat).take n, ?_, List.take_prefix _ _, ?_⟩
    · rw [hread, hnlen]
    · intro hcount
      rw [← List.length_eq_zero_iff, ← List.length_eq_zero_iff, hnlen, List.length_drop]
      omega
  · have hfrom : log.readFrom fPos = [] := by
      unfold CommandLog.readFrom
      split
      · rfl
      · rw [List.drop_eq_nil_iff]
        omega
    have hout : log.contents.length ≤ toU64 fPos := by
      unfold toU64
      omega
    refine ⟨[], ?_, List.nil_prefix, fun _ => by simp [hfrom]⟩
    rw [readResult_outside log count hint hout hne]
    simp

end

/-! ## Logs that grow -/

section
variable {log log' log'' : CommandLog}

theorem CommandLog.contents_eq_drop (log : CommandLog) (p : Nat) :
    log.commands.flatten.drop (log.evicted.flatten.length + p)
      = log.contents.drop p := by
  rw [← log.evicted_append_stored, List.flatten_append, List.drop_append]
  simp [CommandLog.contents]

theorem CommandLog.contents_length (log : CommandLog) :
    log.evicted.flatten.length + log.contents.length = log.commands.flatten.length := by
  rw [← log.evicted_append_stored, List.flatten_append, List.length_append,
    CommandLog.contents]

theorem CommandLog.commands_after (log : CommandLog) (op : Op) (r : Reply) :
    log.commands <+: (log.after op r).commands := by
  rw [CommandLog.after]
  cases acceptedChunk (op, r) with
  | none => exact List.prefix_rfl
  | some chunk =>
      by_cases h : newline ∈ chunk
      · exact ⟨_, (CommandLog.write_commit _ h).1.symm⟩
      · exact ⟨[], by simpa using (CommandLog.write_append _ h).1.symm⟩

/-- What is evicted stays evicted. -/
theorem CommandLog.evicted_mono (h : log.commands <+: log'.commands) :
    log.evicted <+: log'.evicted := by
  have hle := h.length_le
  rw [evicted, evicted, List.rdrop, List.rdrop, List.prefix_take_iff, List.length_take]
  exact ⟨(List.take_prefix _ _).trans h, by omega⟩

theorem CommandLog.contents_mono (h : log.commands <+: log'.commands)
    (he : log'.evicted = log.evicted) : log.contents <+: log'.contents := by
  obtain ⟨cs, hcs⟩ := h
  rw [← log.evicted_append_stored, ← log'.evicted_append_stored, he,
    List.append_assoc, List.append_cancel_left_eq] at hcs
  exact ⟨cs.flatten, by rw [contents, contents, ← hcs, List.flatten_append]⟩

end

/-! ## Runs of writes and reads -/

/-- A write that succeeded, or a read whose copy does not fault. -/
def quietCall : Op × Reply → Bool
  | (.write _, r) => decide (0 ≤ r.ret)
  | (.read c, _) => !c.env.fault
  | _ => false

/-- A run of successful writes and of reads. -/
def Quiet (ops : List Op) (rs : List Reply) : Prop :=
  ∀ q ∈ ops.zip rs, quietCall q = true

instance (ops : List Op) (rs : List Reply) : Decidable (Quiet ops rs) :=
  inferInstanceAs (Decidable (∀ q ∈ ops.zip rs, _))

/-- The bytes a call delivers to `file`. -/
def delivered (file : Nat) : Op × Reply → List UInt8
  | (.read c, r) => if c.file = file then r.data else []
  | _ => []

/-- The bytes a run delivers to `file`. -/
def received (file : Nat) (ops : List Op) (rs : List Reply) : List UInt8 :=
  (ops.zip rs).flatMap (delivered file)

theorem received_concat {file : Nat} {ops : List Op} {rs : List Reply} (op : Op)
    (r : Reply) (h : rs.length = ops.length) :
    received file (ops ++ [op]) (rs ++ [r])
      = received file ops rs ++ delivered file (op, r) := by
  rw [received, List.zip_append h.symm, List.flatMap_append]
  simp [received]

theorem quiet_concat {ops : List Op} {rs : List Reply} {op : Op} {r : Reply}
    (h : rs.length = ops.length) :
    Quiet (ops ++ [op]) (rs ++ [r]) ↔ Quiet ops rs ∧ quietCall (op, r) = true := by
  rw [Quiet, List.zip_append h.symm]
  simp only [List.zip_cons_cons, List.zip_nil_right, List.mem_append,
    List.mem_singleton, Quiet]
  constructor
  · intro hq
    exact ⟨fun q hm => hq q (.inl hm), hq _ (.inr rfl)⟩
  · rintro ⟨hq, hlast⟩ q (hm | rfl)
    · exact hq q hm
    · exact hlast

/-- The contents are short: what holds of every log a device follows. -/
def LogState.Bounded (a : LogState) : Prop := a.log.contents.length < 2 ^ 60

theorem DeviceTracks.bounded {d : Device} {a : LogDevice} (h : DeviceTracks d a) :
    a.state.Bounded := by
  obtain ⟨held, es, hr⟩ := h.state.ring
  exact hr.contents_lt

/-- What `file` has: the first `f_pos` bytes of the contents. -/
structure CaughtUp (a : LogDevice) (file : Nat) (data : List UInt8) : Prop where
  fPos : a.fPos file = data.length
  prefix_contents : data <+: a.state.log.contents

/-- **A read of a file that is caught up** delivers what comes next. -/
theorem CaughtUp.read {a : LogDevice} {file : Nat} {data : List UInt8} {env : CallEnv}
    (h : CaughtUp a file data) (count : Nat) (hb : a.state.Bounded)
    (hint : env.interrupted = false) (hfault : env.fault = false) :
    ∃ next : List UInt8, readResult a.state.log.stored (a.fPos file) count env
        = some ((next.length : Int), next, ((data ++ next).length : Int)) ∧
      data ++ next <+: a.state.log.contents ∧
      (0 < count → (next = [] ↔ data = a.state.log.contents)) := by
  have hle := h.prefix_contents.length_le
  have hb' : a.state.log.contents.length < 2 ^ 60 := hb
  obtain ⟨tail, htail⟩ := h.prefix_contents
  have hfrom : a.state.log.readFrom (a.fPos file) = tail := by
    rw [h.fPos, CommandLog.readFrom, if_neg (by omega), Int.toNat_natCast, ← htail,
      List.drop_left]
  have hne : a.state.log.stored ≠ [] ∨ a.fPos file = 0 := by
    rw [or_iff_not_imp_left, not_not]
    intro hnil
    rw [CommandLog.contents, hnil] at hle
    rw [h.fPos, List.eq_nil_of_length_eq_zero (Nat.le_zero.mp hle)]
    rfl
  have hpos := h.fPos
  obtain ⟨next, hread, hpre, hnil⟩ := readResult_next a.state.log count hint hfault hb'
    (by omega) (by omega) hne
  rw [hfrom] at hpre hnil
  refine ⟨next, ?_, ?_, fun hcount => ?_⟩
  · rw [hread, h.fPos, List.length_append]
    push_cast
    rfl
  · rw [← htail]
    exact (List.prefix_append_right_inj data).mpr hpre
  · rw [hnil hcount, ← htail]
    simp

/-- **One call keeps a file caught up**: a write only extends the contents, a
read continues where the file is. -/
theorem CaughtUp.step {a a' : LogDevice} {file : Nat} {data : List UInt8} {op : Op}
    {r : Reply} (h : CaughtUp a file data) (hb : a.state.Bounded)
    (hs : a.step op = some (r, a')) (hq : quietCall (op, r) = true)
    (he : a'.state.log.evicted = a.state.log.evicted) :
    CaughtUp a' file (data ++ delivered file (op, r)) := by
  cases op with
  | write c =>
      obtain ⟨-, -, hf⟩ := LogDevice.step_write hs
      have hlog := LogDevice.step_log hs
      have hcmds := a.state.log.commands_after (.write c) r
      rw [← hlog] at hcmds
      simp only [delivered, List.append_nil]
      exact ⟨by rw [hf, h.fPos],
        h.prefix_contents.trans (CommandLog.contents_mono hcmds he)⟩
  | read c =>
      have hstate := LogDevice.step_state (fun _ h => by cases h) hs
      simp only [LogDevice.step, Option.bind_eq_bind, Option.bind_eq_some_iff] at hs
      obtain ⟨⟨ret, bytes, pos⟩, hread, hs⟩ := hs
      cases hs
      by_cases hf : c.file = file
      · subst hf
        simp only [delivered, if_true]
        cases hint : c.env.interrupted with
        | true =>
            simp only [readResult, hint, if_true, Option.some.injEq, Prod.mk.injEq] at hread
            obtain ⟨-, rfl, rfl⟩ := hread
            rw [List.append_nil]
            exact ⟨by simp [h.fPos], h.prefix_contents⟩
        | false =>
            obtain ⟨next, hnext, hpre, -⟩ := h.read c.count hb hint (by simpa [quietCall] using hq)
            rw [hnext] at hread
            simp only [Option.some.injEq, Prod.mk.injEq] at hread
            obtain ⟨-, rfl, rfl⟩ := hread
            exact ⟨by simp, hpre⟩
      · simp only [delivered, if_neg hf, List.append_nil]
        exact ⟨(Function.update_of_ne (Ne.symm hf) _ _).trans h.fPos, h.prefix_contents⟩
  | _ => cases hq

theorem commands_run {a a' : LogDevice} {ops : List Op} {rs : List Reply}
    (h : run LogDevice.step a ops = some (rs, a')) :
    a.state.log.commands <+: a'.state.log.commands := by
  refine run_invariant (I := fun b => a.state.log.commands <+: b.state.log.commands)
    ?_ List.prefix_rfl h
  intro b op r b' hb hs
  refine hb.trans ?_
  rw [LogDevice.step_log hs]
  exact b.state.log.commands_after op r

/-- **A run keeps a file caught up**, as long as it evicts nothing. -/
theorem caughtUp_run {d d' : Device} {a : LogDevice} {file : Nat} {ops : List Op}
    {rs : List Reply} (ht : DeviceTracks d a) (h0 : d.fPos file = 0)
    (h : run Device.step d ops = some (rs, d')) (hq : Quiet ops rs) :
    ∃ a', run LogDevice.step a ops = some (rs, a') ∧ DeviceTracks d' a' ∧
      (a'.state.log.evicted = a.state.log.evicted →
        CaughtUp a' file (received file ops rs)) := by
  revert hq
  refine run_history (P := fun ops rs d' => Quiet ops rs →
    ∃ a', run LogDevice.step a ops = some (rs, a') ∧ DeviceTracks d' a' ∧
      (a'.state.log.evicted = a.state.log.evicted →
        CaughtUp a' file (received file ops rs))) ?_ ?_ h
  · intro _
    refine ⟨a, rfl, ht, fun _ => ⟨?_, List.nil_prefix⟩⟩
    rw [← ht.fPos, h0]
    rfl
  · intro ops rs b op r b' hrun ih hs hq
    obtain ⟨hq, hlast⟩ := (quiet_concat (run_length hrun)).mp hq
    obtain ⟨c, ha, hc, hcaught⟩ := ih hq
    have hstep := hc.step op
    rw [hs] at hstep
    obtain ⟨c', hc', ht'⟩ := hstep.of_some_left
    refine ⟨c', run_snoc.mpr ⟨rs, c, r, ha, hc', rfl⟩, ht', fun he => ?_⟩
    have hcmds : c.state.log.commands <+: c'.state.log.commands := by
      rw [LogDevice.step_log hc']
      exact c.state.log.commands_after op r
    -- the step evicts nothing either: what is evicted only grows
    have he' : c.state.log.evicted = a.state.log.evicted := by
      refine (CommandLog.evicted_mono (commands_run ha)).eq_of_length_le ?_ |>.symm
      rw [← he]
      exact (CommandLog.evicted_mono hcmds).length_le
    rw [received_concat op r (run_length hrun)]
    exact (hcaught he').step hc.bounded hc' hlast (by rw [he, he'])

/-- **Reads return slices of the history.** `history` is everything committed
since the device was initialised, `gone` how much of it was evicted. After
any run, a read at a position inside the contents returns what is left of one
command, up to `count`, and advances by it. And a file at position 0 receives,
over any further run of successful writes and of reads that evicts nothing,
the contents from their start, each byte once, and 0 bytes exactly when it has
all of them. -/
theorem reads_slice_history (limit : Nat) (hl : limit ≤ 2 ^ 56) (fPos : Nat → Int)
    {ops : List Op} {rs : List Reply} {d : Device}
    (h : run Device.step (.init limit hl fPos) ops = some (rs, d)) :
    let log := commandLog (accepted ops rs)
    let history := log.commands.flatten
    let gone := log.evicted.flatten.length
    (∀ c : ReadCall, c.env.interrupted = false → c.env.fault = false → 0 < c.count →
      0 ≤ d.fPos c.file → d.fPos c.file < history.length - gone →
      ∃ (before after : List (List UInt8)) (command : List UInt8) (n : Nat),
        log.stored = before ++ command :: after ∧
        before.flatten.length ≤ (d.fPos c.file).toNat ∧
        (d.fPos c.file).toNat < before.flatten.length + command.length ∧
        n = min c.count
          (before.flatten.length + command.length - (d.fPos c.file).toNat) ∧
        1 ≤ n ∧
        d.step (.read c) = some
          (⟨n, (history.drop (gone + (d.fPos c.file).toNat)).take n⟩,
            { d with fPos := Function.update d.fPos c.file (d.fPos c.file + n) })) ∧
    (∀ (file : Nat) (ops' : List Op) (rs' : List Reply) (d' : Device),
      d.fPos file = 0 → run Device.step d ops' = some (rs', d') → Quiet ops' rs' →
      let log' := commandLog (accepted (ops ++ ops') (rs ++ rs'))
      log'.evicted = log.evicted →
      received file ops' rs' = log'.contents.take (d'.fPos file).toNat ∧
      d'.fPos file = (received file ops' rs').length ∧
      ∀ c : ReadCall, c.file = file → c.env.interrupted = false →
        c.env.fault = false → 0 < c.count →
        ∃ r d'', d'.step (.read c) = some (r, d'') ∧
          (r.ret = 0 ↔ received file ops' rs' = log'.contents)) := by
  intro log history gone
  obtain ⟨a, ha, ht, hlog⟩ := run_tracks h
  have hlog : a.state.log = log := hlog
  obtain ⟨held, es, hr⟩ := ht.state.ring
  constructor
  · intro c hint hfault hcount h0 hlt
    rw [hlog] at hr
    have hlen : gone + log.contents.length = history.length := log.contents_length
    obtain ⟨before, command, after, hsplit, h1, h2, hread⟩ :=
      readResult_inside log c.count hint hfault hr.contents_lt h0 (by omega)
    refine ⟨before, after, command, _, hsplit, h1, h2, rfl, by omega, ?_⟩
    simp only [Device.step, hr.aesdRead, hread, Option.bind_eq_bind, Option.bind_some,
      Option.pure_def, history, gone, log.contents_eq_drop]
  · intro file ops' rs' d' h0 hrun hq log' he
    obtain ⟨a', ha', ht', hcaught⟩ := caughtUp_run ht h0 hrun hq
    have hlog' : a'.state.log = log' :=
      run_log (run_append.mpr ⟨rs, a, rs', ha, ha', rfl⟩)
    have hc := hcaught (by rw [hlog, hlog', he])
    have hfPos : d'.fPos file = (received file ops' rs').length := by
      rw [ht'.fPos, hc.fPos]
    refine ⟨?_, hfPos, ?_⟩
    · rw [hfPos, Int.toNat_natCast, ← hlog']
      exact List.prefix_iff_eq_take.mp hc.prefix_contents
    · rintro c rfl hint hfault hcount
      obtain ⟨held', es', hr'⟩ := ht'.state.ring
      obtain ⟨next, hnext, -, hnil⟩ :=
        hc.read c.count ht'.bounded hint hfault
      rw [← ht'.fPos] at hnext
      rw [hlog'] at hnext hnil hr'
      refine ⟨⟨next.length, next⟩, ⟨d'.driver, Function.update d'.fPos c.file
        (received c.file ops' rs' ++ next).length⟩, ?_, ?_⟩
      · simp only [Device.step, hr'.aesdRead, hnext, Option.bind_eq_bind,
          Option.bind_some, Option.pure_def]
      · rw [← hnil hcount]
        simp

/-- A read of `count` bytes with nothing in its way. -/
def ReadCall.quiet (file count : Nat) : ReadCall := ⟨file, count, ⟨false, false⟩⟩

theorem reads_slice_history_one_command :
    ∃ rs d, run Device.step (.init 4096 (by decide) fun _ => 0)
        [.write (.quiet 0 [97, 98, 10] (by decide))] = some (rs, d) ∧
      (∃ n d', 1 ≤ n ∧ d.step (.read (.quiet 1 2))
        = some (⟨(n : Nat), ([97, 98, 10] : List UInt8).take n⟩, d')) ∧
      ∃ r d', d.step (.read (.quiet 1 2)) = some (r, d') ∧ r.ret ≠ 0 := by
  have h : (run Device.step (.init 4096 (by decide) fun _ => 0)
      [.write (.quiet 0 [97, 98, 10] (by decide))]).map (fun p => (p.1, p.2.fPos 1))
      = some ([⟨3, []⟩], 0) := by decide
  obtain ⟨⟨rs, d⟩, hr, heq⟩ := Option.map_eq_some_iff.mp h
  simp only [Prod.mk.injEq] at heq
  obtain ⟨rfl, hpos⟩ := heq
  obtain ⟨hone, hmany⟩ := reads_slice_history 4096 (by decide) (fun _ => 0) hr
  refine ⟨_, d, hr, ?_, ?_⟩
  · obtain ⟨_, _, _, n, -, -, -, -, hn, hstep⟩ := hone (.quiet 1 2) rfl rfl (by decide)
      (by rw [ReadCall.quiet, hpos]) (by rw [ReadCall.quiet, hpos]; decide)
    rw [ReadCall.quiet, hpos] at hstep
    exact ⟨n, _, hn, hstep⟩
  · obtain ⟨-, -, hend⟩ := hmany 1 [] [] d hpos rfl (by decide) rfl
    obtain ⟨r, d', hs, hret⟩ := hend (.quiet 1 2) rfl rfl rfl (by decide)
    refine ⟨r, d', hs, ?_⟩
    rw [Ne, hret]
    decide

/-! ## Where a read stays inside a command -/

/-- The copy of `aesd_read` stays inside a stored command: the offset is at
most its size, so `size - offset` does not wrap, and the bytes copied are
among the `size` bytes its block holds, or there are none. -/
structure CopyInside (s : DriverState) (plan : ReadPlan) : Prop where
  offset_le : plan.offset ≤ plan.pEntry.size
  available : toU64 ((plan.pEntry.size : Int) - plan.offset)
    = plan.pEntry.size - plan.offset
  inside : plan.bytesToCopy = 0 ∨
    plan.pEntry ∈ s.aesdDevice.circularBuffer.stored ∧
    plan.offset + plan.bytesToCopy ≤ plan.pEntry.size ∧
    ∃ id bs, plan.pEntry.buffptr = .block id ∧ s.heap.live id = some bs ∧
      bs.length = plan.pEntry.size

section
variable {s : DriverState} {log : CommandLog} {held : Ptr} {es : List AesdBufferEntry}

theorem RingHolds.stored_eq_nil_iff
    (h : RingHolds s.heap s.aesdDevice.circularBuffer held es log.commands) :
    log.stored = [] ↔ s.aesdDevice.circularBuffer.count = 0 := by
  rw [← List.length_eq_zero_iff, log.stored_length, h.count, Nat.min_comm]

/-- A stored command is in a live block. -/
theorem RingHolds.entry_live
    (h : RingHolds s.heap s.aesdDevice.circularBuffer held es log.commands)
    {e : AesdBufferEntry} (he : e ∈ s.aesdDevice.circularBuffer.stored)
    (hne : s.heap.bytes e.buffptr ≠ []) :
    ∃ id, e.buffptr = .block id ∧ s.heap.live id = some (s.heap.bytes e.buffptr) := by
  have hmem := List.mem_cons_of_mem held (buffptr_mem_slotPtrs he)
  cases hp : e.buffptr with
  | null => simp [hp] at hne
  | zeroSize => simp [hp] at hne
  | block id =>
      rw [hp] at hmem
      exact ⟨id, rfl, h.owned.live hmem⟩

theorem RingHolds.copyInside
    (h : RingHolds s.heap s.aesdDevice.circularBuffer held es log.commands)
    (hne : log.stored ≠ []) {fPos : Int} {count : Nat} {plan : ReadPlan}
    (hplan : aesdReadPlan s.aesdDevice fPos count = some (some plan)) :
    CopyInside s plan := by
  rcases h.readPlan hne fPos count with ⟨-, hnone⟩ | ⟨i, k, hi, -, hk, hsome⟩
  · rw [hnone] at hplan
    cases hplan
  · rw [hsome] at hplan
    cases hplan
    obtain ⟨hmem, hsize, hbytes⟩ := h.entry hi
    have hle := h.stored_le _ (List.getElem_mem hi)
    have hpos : s.heap.bytes (s.aesdDevice.circularBuffer.at
        ((s.aesdDevice.circularBuffer.outOffs + i) % 10)).buffptr ≠ [] := by
      rw [hbytes]
      intro hnil
      rw [hnil] at hk
      simp at hk
    obtain ⟨id, hid, hlive⟩ := h.entry_live hmem hpos
    refine ⟨by dsimp only; omega, ?_, .inr ⟨hmem, by dsimp only; omega, id, _, hid, hlive,
      by rw [hbytes, hsize]⟩⟩
    dsimp only
    rw [hsize]
    have := toU64_of_range (x := ((log.stored[i]).length : Int) - (k : Int))
      (by omega) (by omega)
    omega

end

/-- **A read stays inside a stored command exactly when there is one, or at
position 0.** On an empty ring the search compares the position with
`0 - 1`, finds the zeroed slot at any position, and `size - offset` wraps. -/
theorem read_inside_iff {limit : Nat} {hl : limit ≤ 2 ^ 56} {fPos : Nat → Int}
    {d : Device} (hd : Reachable Device.step (.init limit hl fPos) d) {pos : Int}
    (h0 : 0 ≤ pos) (hmax : pos < 2 ^ 63) (count : Nat) :
    (∀ plan, aesdReadPlan d.driver.aesdDevice pos count = some (some plan) →
      CopyInside d.driver plan) ↔
    d.driver.aesdDevice.circularBuffer.count ≠ 0 ∨ pos = 0 := by
  obtain ⟨a, ha⟩ := reachable_tracks hd
  obtain ⟨held, es, hr⟩ := ha.state.ring
  have hpos : (toU64 pos : Int) = pos := toU64_of_range h0 (by omega)
  rw [Ne, ← hr.stored_eq_nil_iff]
  by_cases hne : a.state.log.stored = []
  · obtain ⟨n, hplan, hn⟩ := hr.readPlan_empty hne pos count
    constructor
    · intro h
      have hle := (h _ hplan).offset_le
      dsimp only at hle
      right
      omega
    · rintro (hne' | rfl) plan hp
      · exact absurd hne hne'
      · rw [hplan] at hp
        cases hp
        have hz : toU64 (0 : Int) = 0 := rfl
        exact ⟨by simp [hz], by simp [hz], .inl (hn.mpr (.inl hz))⟩
  · constructor
    · exact fun _ => .inl hne
    · intro _ plan hp
      exact hr.copyInside hne hp

/-- `lseek` to 5 on a device with nothing in it, then a read. -/
theorem read_outside_on_empty_ring :
    ¬ ∀ d, Reachable Device.step (.init 4096 (by decide) fun _ => 0) d →
      ∀ file count plan, 0 ≤ d.fPos file →
        aesdReadPlan d.driver.aesdDevice (d.fPos file) count = some (some plan) →
        CopyInside d.driver plan := by
  intro hall
  have h : (run Device.step (.init 4096 (by decide) fun _ => 0)
      [.llseek 0 5 0 false]).map
        (fun p => (p.2.fPos 0, aesdReadPlan p.2.driver.aesdDevice (p.2.fPos 0) 1))
      = some (5, some (some ⟨⟨.null, 0⟩, 5, 1⟩)) := by decide
  obtain ⟨⟨rs, d⟩, hr, heq⟩ := Option.map_eq_some_iff.mp h
  simp only [Prod.mk.injEq] at heq
  have hin := hall d ⟨_, rs, hr⟩ 0 1 _ (by rw [heq.1]; decide) heq.2
  exact absurd hin.offset_le (by decide)

theorem read_inside_iff_fresh_device :
    (∀ plan, aesdReadPlan (Device.init 4096 (by decide) fun _ => 0).driver.aesdDevice 5 1
        = some (some plan) →
      CopyInside (Device.init 4096 (by decide) fun _ => 0).driver plan) ↔
    (Device.init 4096 (by decide) fun _ => 0).driver.aesdDevice.circularBuffer.count ≠ 0 ∨
      (5 : Int) = 0 :=
  read_inside_iff (.refl _) (by decide) (by decide) 1

end Aesd.Driver
