import Aesd.Driver.Reads
import Mathlib.Data.List.Infix

/-!
# A reader that falls behind

A position counts from the oldest command the device still has. When a command
is evicted under a reader, the reader's position stays and what it refers to
moves on, so the reader skips bytes. What it receives next is as much further on
in the history as was evicted, so it reads nothing twice or out of order
(`reads_skip_evicted`).
-/

namespace Aesd.Driver

open Aesd.Lib

/-- A call, other than a read, that moves `file`. -/
def Op.repositions (file : Nat) : Op → Bool
  | .open f | .llseek f _ _ _ | .ioctl f _ _ _ => decide (f = file)
  | .write _ | .read _ => false

/-- **A read**, whatever the kernel decides, delivers what follows the position,
and moves behind it. -/
theorem readResult_delivers {log : CommandLog} {fPos pos ret : Int} {count : Nat}
    {env : CallEnv} {data : List UInt8} (h0 : 0 ≤ fPos) (hmax : fPos < 2 ^ 62)
    (hlen : log.contents.length < 2 ^ 60)
    (h : readResult log.stored fPos count env = some (ret, data, pos)) :
    data <+: log.contents.drop fPos.toNat ∧ pos = fPos + data.length := by
  have hnone : some (ret, ([] : List UInt8), fPos) = some (ret, data, pos) →
      data <+: log.contents.drop fPos.toNat ∧ pos = fPos + data.length := by
    intro heq
    cases heq
    exact ⟨List.nil_prefix, by simp⟩
  unfold readResult at h
  by_cases hint : env.interrupted = true
  · rw [if_pos hint] at h
    cases h
    exact hnone rfl
  rw [if_neg hint] at h
  by_cases hnil : log.stored = []
  · rw [if_pos hnil] at h
    have hto : toI64 fPos = fPos := toI64_of_range (by omega) (by omega)
    split at h <;> cases h
    rw [hto]
    exact ⟨List.nil_prefix, by simp⟩
  rw [if_neg hnil] at h
  obtain ⟨p, rfl⟩ := Int.eq_ofNat_of_zero_le h0
  have hu : toU64 (p : Int) = p := toU64_natCast (by omega)
  rw [hu] at h
  cases hl : locate (log.stored.map List.length) p with
  | none =>
      rw [hl] at h
      cases h
      exact hnone rfl
  | some q =>
      obtain ⟨i, k⟩ := q
      obtain ⟨hi, hk, hdrop⟩ := drop_flatten_of_locate hl
      rw [hl] at h
      simp only [List.getElem?_eq_getElem hi, Option.getD_some] at h
      split at h
      · cases h
        exact hnone rfl
      · cases h
        have hpre : ((log.stored[i]).drop k).take count <+: log.contents.drop p := by
          rw [CommandLog.contents, hdrop]
          exact (List.take_prefix _ _).trans (List.prefix_append _ _)
        have hle := hpre.length_le
        rw [List.length_drop] at hle
        exact ⟨hpre, toI64_of_range (by omega) (by omega)⟩

/-- What `file` has, of everything committed from byte `start` on: a part of
what comes before its position, with as much left out as was evicted. -/
structure Trails (start : Nat) (a : LogDevice) (file : Nat) (data : List UInt8) : Prop where
  fPos : a.fPos file = data.length
  short : data.length < 2 ^ 60
  started : start ≤ a.state.log.evicted.flatten.length
  part : data.Sublist ((a.state.log.commands.flatten.drop start).take
    (a.state.log.evicted.flatten.length - start + data.length))

section
variable {start file : Nat} {a a' : LogDevice} {data : List UInt8} {op : Op} {r : Reply}

theorem Trails.grow (h : Trails start a file data)
    (hcmds : a.state.log.commands <+: a'.state.log.commands) (hfPos : a'.fPos file = a.fPos file) :
    Trails start a' file data := by
  have hevicted := (List.IsPrefix.flatten (CommandLog.evicted_mono hcmds)).length_le
  have hstarted := h.started
  refine ⟨by rw [hfPos, h.fPos], h.short, by omega, h.part.trans ?_⟩
  -- the part of the old history is the start of that of the new
  obtain ⟨more, hmore⟩ := List.IsPrefix.flatten hcmds
  have hle : start ≤ a.state.log.commands.flatten.length := by
    have := a.state.log.contents_length
    omega
  rw [← hmore, List.drop_append_of_le_length hle]
  have hmono : a.state.log.evicted.flatten.length - start + data.length
      ≤ a'.state.log.evicted.flatten.length - start + data.length := by omega
  refine (List.take_sublist_take_left hmono).trans ?_
  rw [List.take_append]
  exact List.sublist_append_left _ _

/-- **What a read delivers** comes in the history after what was evicted and as
much as the file has. -/
theorem Trails.next (h : Trails start a file data) {c : ReadCall} (hc : c.file = file)
    (hb : a.state.Bounded) (hs : a.step (.read c) = some (r, a')) :
    r.data <+: a.state.log.commands.flatten.drop
        (a.state.log.evicted.flatten.length + data.length) ∧
      a'.state = a.state ∧ a'.fPos file = (data ++ r.data).length := by
  obtain rfl := hc
  simp only [LogDevice.step, Option.bind_eq_bind, Option.bind_eq_some_iff] at hs
  obtain ⟨⟨ret, next, pos⟩, hread, hs⟩ := hs
  cases hs
  have hshort := h.short
  rw [h.fPos] at hread
  obtain ⟨hnext, rfl⟩ := readResult_delivers (by omega) (by omega) hb hread
  rw [Int.toNat_natCast, ← a.state.log.contents_eq_drop] at hnext
  refine ⟨hnext, rfl, ?_⟩
  simp only [Function.update_self, List.length_append]
  push_cast
  rfl

/-- **A read goes on** from the position, past what was evicted. -/
theorem Trails.read (h : Trails start a file data) {c : ReadCall} (hc : c.file = file)
    (hb : a.state.Bounded) (hs : a.step (.read c) = some (r, a')) :
    Trails start a' file (data ++ r.data) := by
  obtain ⟨hnext, hstate, hfPos⟩ := h.next hc hb hs
  have hshort := h.short
  have hstarted := h.started
  have hlen : a.state.log.contents.length < 2 ^ 60 := hb
  have hcontents := a.state.log.contents_length
  have hle := hnext.length_le
  rw [List.length_drop] at hle
  refine ⟨hfPos, ?_, by rw [hstate]; exact hstarted, ?_⟩
  · rw [List.length_append]
    by_cases hnil : r.data = []
    · rw [hnil]
      exact hshort
    · have := List.length_pos_of_ne_nil hnil
      omega
  · -- the position, counted from `start`
    have hdrop : (a.state.log.commands.flatten.drop start).drop
        (a.state.log.evicted.flatten.length - start + data.length)
          = a.state.log.commands.flatten.drop
            (a.state.log.evicted.flatten.length + data.length) := by
      rw [List.drop_drop]
      congr 1
      omega
    rw [List.prefix_iff_eq_take] at hnext
    rw [hstate, List.length_append, ← Nat.add_assoc, List.take_add, hdrop, ← hnext]
    exact h.part.append (List.Sublist.refl _)

/-- **One call** of any file, that does not seek with the one that reads. -/
theorem Trails.step (h : Trails start a file data) (hb : a.state.Bounded)
    (hmoves : op.repositions file = false) (hs : a.step op = some (r, a')) :
    Trails start a' file (data ++ delivered file (op, r)) := by
  have hcmds := a.state.log.commands_after op r
  rw [← LogDevice.step_log hs] at hcmds
  cases op with
  | write c =>
      obtain ⟨-, -, hfPos⟩ := LogDevice.step_write hs
      simp only [delivered, List.append_nil]
      exact h.grow hcmds (by rw [hfPos])
  | read c =>
      by_cases hc : c.file = file
      · simp only [delivered, if_pos hc]
        exact h.read hc hb hs
      · simp only [delivered, if_neg hc, List.append_nil]
        simp only [LogDevice.step, Option.bind_eq_bind, Option.bind_eq_some_iff] at hs
        obtain ⟨⟨ret, next, pos⟩, -, hs⟩ := hs
        cases hs
        exact h.grow hcmds (Function.update_of_ne (Ne.symm hc) _ _)
  | «open» f =>
      have hf : f ≠ file := of_decide_eq_false hmoves
      cases hs
      simp only [delivered, List.append_nil]
      exact h.grow hcmds (Function.update_of_ne (Ne.symm hf) _ _)
  | llseek f off whence interrupted =>
      have hf : f ≠ file := of_decide_eq_false hmoves
      cases hs
      simp only [delivered, List.append_nil]
      exact h.grow hcmds (Function.update_of_ne (Ne.symm hf) _ _)
  | ioctl f cmd seekto env =>
      have hf : f ≠ file := of_decide_eq_false hmoves
      cases hs
      simp only [delivered, List.append_nil]
      exact h.grow hcmds (Function.update_of_ne (Ne.symm hf) _ _)

end

/-! ## Runs -/

theorem Trails.init {a : LogDevice} {file : Nat} (h0 : a.fPos file = 0) :
    Trails a.state.log.evicted.flatten.length a file [] :=
  ⟨h0, by simp, le_refl _, List.nil_sublist _⟩

/-- **Every run** in which a file only reads keeps it trailing. -/
theorem run_trails {d d' : Device} {a : LogDevice} (ht : DeviceTracks d a) {file : Nat}
    (h0 : a.fPos file = 0) {ops : List Op} {rs : List Reply}
    (hrun : run Device.step d ops = some (rs, d'))
    (hmoves : ∀ op ∈ ops, op.repositions file = false) :
    ∃ a', run LogDevice.step a ops = some (rs, a') ∧ DeviceTracks d' a' ∧
      Trails a.state.log.evicted.flatten.length a' file (received file ops rs) := by
  revert hmoves
  refine run_history (P := fun ops rs d' => (∀ op ∈ ops, op.repositions file = false) →
    ∃ a', run LogDevice.step a ops = some (rs, a') ∧ DeviceTracks d' a' ∧
      Trails a.state.log.evicted.flatten.length a' file (received file ops rs)) ?_ ?_ hrun
  · intro _
    exact ⟨a, rfl, ht, .init h0⟩
  · intro ops rs b op r b' hbefore ih hs hm
    obtain ⟨c, hc, htc, htrails⟩ := ih fun op hop => hm op (by simp [hop])
    have hstep := htc.step op
    rw [hs] at hstep
    obtain ⟨c', hc', ht'⟩ := hstep.of_some_left
    refine ⟨c', run_snoc.mpr ⟨rs, c, r, hc, hc', rfl⟩, ht', ?_⟩
    rw [received_concat op r (run_length hbefore)]
    exact htrails.step htc.bounded (hm op (by simp)) hc'

/-- **A reader that falls behind skips what was evicted**, and nothing else. Take
any run from any reachable device in which a file at position 0 does nothing
but read, with any counts and faults, while other files do whatever they like.
Its position is the number of bytes it received. Each of its reads delivers the
bytes of the history from the number evicted by then and the number received by
then: the `k`-th byte received is byte `k` of the history, moved on by what was
evicted before its read, so between two reads just as many bytes are skipped as
are evicted between them. What was received is therefore a subsequence of the
history. -/
theorem reads_skip_evicted (limit : Nat) (hl : limit ≤ 2 ^ 56) (fPos : Nat → Int)
    {ops : List Op} {rs : List Reply} {d : Device}
    (h : run Device.step (.init limit hl fPos) ops = some (rs, d)) (file : Nat)
    (h0 : d.fPos file = 0) {ops' : List Op} {rs' : List Reply} {d' : Device}
    (hrun : run Device.step d ops' = some (rs', d'))
    (hmoves : ∀ op ∈ ops', op.repositions file = false) :
    let start := (commandLog (accepted ops rs)).evicted.flatten.length
    let log := commandLog (accepted (ops ++ ops') (rs ++ rs'))
    let data := received file ops' rs'
    d'.fPos file = data.length ∧
      (∀ pre c post rpre r rpost, ops' = pre ++ .read c :: post → rs' = rpre ++ r :: rpost →
        rpre.length = pre.length → c.file = file →
        let log := commandLog (accepted (ops ++ pre) (rs ++ rpre))
        start ≤ log.evicted.flatten.length ∧
          r.data <+: log.commands.flatten.drop
            (log.evicted.flatten.length + (received file pre rpre).length)) ∧
      start ≤ log.evicted.flatten.length ∧
      data.Sublist ((log.commands.flatten.drop start).take
        (log.evicted.flatten.length - start + data.length)) := by
  intro start log data
  obtain ⟨a, ha, ht, hlog⟩ := run_tracks h
  have hstart : a.state.log.evicted.flatten.length = start := by rw [hlog]
  have hpos : a.fPos file = 0 := by rw [← ht.fPos, h0]
  obtain ⟨a', ha', ht', htrails⟩ := run_trails ht hpos hrun hmoves
  have hlog' : a'.state.log = log := run_log (run_append.mpr ⟨rs, a, rs', ha, ha', rfl⟩)
  refine ⟨by rw [ht'.fPos, htrails.fPos], ?_, ?_, ?_⟩
  · -- the run up to the read, and the read
    rintro pre c post rpre r rpost rfl rfl hlen hc
    obtain ⟨rpre', e, rest, hpre, hread, heq⟩ := run_append.mp hrun
    obtain ⟨r', e', rpost', hs, -, rfl⟩ := run_cons.mp hread
    obtain ⟨rfl, hrest⟩ := List.append_inj heq (by rw [hlen, run_length hpre])
    obtain ⟨rfl, rfl⟩ := List.cons.inj hrest
    obtain ⟨b, hb, htb, htrails'⟩ := run_trails ht hpos hpre fun op hop =>
      hmoves op (List.mem_append_left _ hop)
    have hlogb : b.state.log = commandLog (accepted (ops ++ pre) (rs ++ rpre)) :=
      run_log (run_append.mpr ⟨rs, a, rpre, ha, hb, rfl⟩)
    have hstep := htb.step (.read c)
    rw [hs] at hstep
    obtain ⟨b', hb', -⟩ := hstep.of_some_left
    have hstarted := htrails'.started
    obtain ⟨hnext, -⟩ := htrails'.next hc htb.bounded hb'
    rw [hstart, hlogb] at hstarted
    rw [hlogb] at hnext
    exact ⟨hstarted, hnext⟩
  · have hstarted := htrails.started
    rw [hstart, hlog'] at hstarted
    exact hstarted
  · have hpart := htrails.part
    rw [hstart, hlog'] at hpart
    exact hpart

/-- Eleven commands: the reader has one byte of the first when it is evicted, with its
two bytes, and then receives the byte after the next two. -/
theorem reads_skip_evicted_eleven :
    let line : UInt8 → Op := fun c => .write (.quiet 1 [c, newline] (by simp))
    let pre := .read (.quiet 0 1) :: List.replicate 10 (line 98)
    let rpre : List Reply := ⟨1, [97]⟩ :: List.replicate 10 ⟨2, []⟩
    let log := commandLog (accepted (line 97 :: pre) (⟨2, []⟩ :: rpre))
    ∃ d d', run Device.step (.init 4096 (by decide) fun _ => 0) [line 97]
        = some ([⟨2, []⟩], d) ∧
      run Device.step d (pre ++ [.read (.quiet 0 1)])
        = some (rpre ++ [⟨1, [newline]⟩], d') ∧
      log.evicted.flatten.length = 2 ∧ (received 0 pre rpre).length = 1 ∧
      [newline] <+: log.commands.flatten.drop (2 + 1) := by
  intro line pre rpre log
  have h : (run Device.step (.init 4096 (by decide) fun _ => 0)
      (line 97 :: (pre ++ [.read (.quiet 0 1)]))).map Prod.fst
      = some (⟨2, []⟩ :: (rpre ++ [⟨1, [newline]⟩])) := by
    decide
  obtain ⟨⟨rs₀, d'⟩, hr, hrs⟩ := Option.map_eq_some_iff.mp h
  obtain ⟨r, d, rs', hs, hr', rfl⟩ := run_cons.mp hr
  have hpos : d.fPos 0 = 0 := by
    simp only [Device.step, line, Option.bind_eq_bind, Option.bind_eq_some_iff] at hs
    obtain ⟨_, -, hs⟩ := hs
    cases hs
    rfl
  obtain ⟨rfl, rfl⟩ := List.cons.inj hrs
  have hone : run Device.step (.init 4096 (by decide) fun _ => 0) [line 97]
      = some ([⟨2, []⟩], d) := run_cons.mpr ⟨_, d, [], hs, rfl, rfl⟩
  obtain ⟨-, hreads, -⟩ := reads_skip_evicted 4096 (by decide) (fun _ => 0) hone 0 hpos hr'
    (by decide)
  obtain ⟨-, hnext⟩ := hreads pre _ [] rpre _ [] rfl rfl rfl rfl
  have hevicted : log.evicted.flatten.length = 2 := by decide
  have hreceived : (received 0 pre rpre).length = 1 := by decide
  refine ⟨d, d', hone, hr', hevicted, hreceived, ?_⟩
  rw [← hevicted, ← hreceived]
  exact hnext

end Aesd.Driver
