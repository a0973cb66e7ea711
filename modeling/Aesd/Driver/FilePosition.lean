import Aesd.Driver.EndOfFile

/-!
# The range of file positions

Reads, `SEEK_CUR` and `AESDCHAR_IOCSEEKTO` add to a file's position in 64-bit
arithmetic. `aesd_llseek` refuses a negative result and a read stays inside
the contents, but `aesd_ioctl` stores its sum unchecked: positions stay in
range exactly in the runs in which no accepted `ioctl` adds past the largest
`loff_t` (`positions_in_range_iff`).
-/

namespace Aesd.Driver

open Aesd.Lib

/-! ## What a step adds -/

/-- The exact sum of the addition a call makes to the position of `file`; its
`off` is a `loff_t`. -/
def positionSum (file : Nat) (d : Device) (r : Reply) : Op → Option Int
  | .read c => if c.file = file then some (d.fPos file + r.data.length) else none
  | .llseek f off whence _ =>
      if f = file ∧ whence = 1 then some (d.fPos file + toI64 off) else none
  | .ioctl f _ seekto _ =>
      if f = file then some (d.fPos file + seekPos d.driver.entries seekto) else none
  | _ => none

/-- After the step the position of `file` is not negative, and a call that
succeeded in adding to it stored the exact sum. -/
structure InRange (file : Nat) (d : Device) (op : Op) (r : Reply) (d' : Device) : Prop where
  nonneg : 0 ≤ d'.fPos file
  exact : ∀ sum, positionSum file d r op = some sum → 0 ≤ r.ret → d'.fPos file = sum

/-- An `ioctl` on `file` that will be accepted has room for its sum. -/
def SumFits (file : Nat) (d : Device) : Op → Prop
  | .ioctl f cmd seekto env => f = file → cmd = aesdcharIocseekto → env = .quiet →
      Accepts d.driver.entries seekto →
      d.fPos file + seekPos d.driver.entries seekto < 2 ^ 63
  | _ => True

/-- What `SEEK_END` measures: nothing on a full ring. -/
def Device.measured (d : Device) : Nat :=
  if d.driver.aesdDevice.circularBuffer.full then 0 else d.driver.entries.flatten.length

/-- A `SEEK_END` that succeeded stored the exact sum. -/
def EndExact (file : Nat) (d : Device) (op : Op) (r : Reply) (d' : Device) : Prop :=
  ∀ off interrupted, op = .llseek file off 2 interrupted → 0 ≤ r.ret →
    d'.fPos file = (d.measured : Int) - 1 + toI64 off

/-- A `SEEK_END` from the smallest `loff_t` before an end measured as 0. -/
def EndWraps (file : Nat) (d : Device) (op : Op) : Prop :=
  ∃ off, op = .llseek file off 2 false ∧ toI64 off = -2 ^ 63 ∧ d.measured = 0

/-! ## One step -/

section
variable {d d' : Device} {log : CommandLog} {held : Ptr} {es : List AesdBufferEntry}
  {file : Nat} {r : Reply}

/-- The file whose position a call may change. -/
def Op.moves : Op → Option Nat
  | .open f => some f
  | .write _ => none
  | .read c => some c.file
  | .llseek f _ _ _ => some f
  | .ioctl f _ _ _ => some f

theorem step_other {op : Op} (hs : d.step op = some (r, d')) (hf : op.moves ≠ some file) :
    d'.fPos file = d.fPos file := by
  have hne : ∀ {f : Nat}, some f ≠ some file → file ≠ f := by
    rintro f h rfl
    exact h rfl
  cases op with
  | «open» f =>
      cases hs
      exact Function.update_of_ne (hne hf) ..
  | write c =>
      simp only [Device.step, Option.bind_eq_bind, Option.bind_eq_some_iff] at hs
      obtain ⟨_, -, hs⟩ := hs
      cases hs
      rfl
  | read c =>
      simp only [Device.step, Option.bind_eq_bind, Option.bind_eq_some_iff] at hs
      obtain ⟨_, -, hs⟩ := hs
      cases hs
      exact Function.update_of_ne (hne hf) ..
  | llseek f off whence interrupted =>
      simp only [Device.step, Option.bind_eq_bind, Option.bind_eq_some_iff] at hs
      obtain ⟨_, -, hs⟩ := hs
      cases hs
      exact Function.update_of_ne (hne hf) ..
  | ioctl f cmd seekto env =>
      simp only [Device.step, Option.bind_eq_bind, Option.bind_eq_some_iff] at hs
      obtain ⟨_, -, hs⟩ := hs
      cases hs
      exact Function.update_of_ne (hne hf) ..

theorem inRange_of_pos {op : Op} {pos : Int} (hpos : d'.fPos file = pos) (h0 : 0 ≤ pos)
    (hlt : pos < 2 ^ 63)
    (hsum : ∀ sum, positionSum file d r op = some sum → 0 ≤ r.ret → pos = sum) :
    InRange file d op r d' ∧ d'.fPos file < 2 ^ 63 := by
  subst hpos
  exact ⟨⟨h0, hsum⟩, hlt⟩

/-- A read inside the contents adds what it delivered; any other leaves the
position. -/
theorem readResult_position {stored : List (List UInt8)} {pos : Int} {count : Nat}
    {env : CallEnv} {ret : Int} {data : List UInt8} {pos' : Int}
    (hlen : stored.flatten.length < 2 ^ 31) (h0 : 0 ≤ pos) (hmax : pos < 2 ^ 63)
    (h : readResult stored pos count env = some (ret, data, pos')) :
    pos' = pos + data.length ∧ pos' < 2 ^ 63 := by
  have hu : (toU64 pos : Int) = pos := toU64_of_range h0 (by omega)
  have hstay : pos = pos + (([] : List UInt8).length : Int) ∧ pos < 2 ^ 63 :=
    ⟨by simp, hmax⟩
  unfold readResult at h
  split at h
  · cases h
    exact hstay
  split at h
  · split at h
    · cases h
      rw [toI64_of_range (by omega) hmax]
      exact hstay
    · cases h
  split at h
  · cases h
    exact hstay
  · rename_i i k hl
    dsimp only at h
    split at h
    · cases h
      exact hstay
    · cases h
      -- the position is inside the contents, and so is where the copy ends
      have hin : toU64 pos < 2 ^ 31 := by
        have hsum : toU64 pos < (stored.map List.length).sum := by
          by_contra hge
          rw [locate_eq_none_iff.mpr (by omega)] at hl
          cases hl
        rw [← List.length_flatten] at hsum
        omega
      have hle := length_getD_le stored i
      have hdata : (((stored[i]?.getD []).drop k).take count).length
          ≤ (stored[i]?.getD []).length := by
        rw [List.length_take, List.length_drop]
        omega
      generalize (((stored[i]?.getD []).drop k).take count) = data at hdata ⊢
      rw [toI64_of_range (by omega) (by omega)]
      exact ⟨rfl, by omega⟩

/-- `aesd_llseek` leaves the position or stores the one it returns. -/
theorem aesdLlseekTo_cases (pos newpos : Int) :
    (newpos < 0 ∧ aesdLlseekTo pos newpos = (-eInval, pos)) ∨
      (0 ≤ newpos ∧ aesdLlseekTo pos newpos = (newpos, newpos)) := by
  rcases Int.lt_or_le newpos 0 with hneg | hnonneg
  · exact .inl ⟨hneg, if_pos hneg⟩
  · exact .inr ⟨hnonneg, if_neg (by omega)⟩

/-- `aesd_llseek` on the file: whatever it stores is not negative, and a sum
with the old position is exact. -/
theorem llseekResult_position {stored : List (List UInt8)} {pos off whence : Int}
    {interrupted : Bool} {ret pos' : Int} (h0 : 0 ≤ pos) (hmax : pos < 2 ^ 63)
    (h : llseekResult stored pos off whence interrupted = (ret, pos')) :
    0 ≤ pos' ∧ pos' < 2 ^ 63 ∧ (whence = 1 → 0 ≤ ret → pos' = pos + toI64 off) := by
  have hto : ∀ x : Int, toI64 x < 2 ^ 63 := fun x => (toI64_range x).2
  have hoff := toI64_range off
  -- the result of `aesd_llseek` from the computed position on
  have hseek : ∀ x : Int, aesdLlseekTo pos (toI64 x) = (ret, pos') →
      0 ≤ pos' ∧ pos' < 2 ^ 63 ∧ (0 ≤ ret → 0 ≤ toI64 x ∧ pos' = toI64 x) := by
    intro x hx
    rcases aesdLlseekTo_cases pos (toI64 x) with ⟨-, heq⟩ | ⟨hnonneg, heq⟩
    · rw [heq] at hx
      cases hx
      exact ⟨h0, hmax, fun hok => absurd hok (by decide)⟩
    · rw [heq] at hx
      cases hx
      exact ⟨hnonneg, hto x, fun _ => ⟨hnonneg, rfl⟩⟩
  unfold llseekResult at h
  split at h
  · rename_i hset
    obtain ⟨h1, h2, -⟩ := hseek _ h
    exact ⟨h1, h2, fun hcur => by omega⟩
  split at h
  · obtain ⟨h1, h2, hok⟩ := hseek _ h
    refine ⟨h1, h2, fun _ hret => ?_⟩
    obtain ⟨hnonneg, heq⟩ := hok hret
    rw [heq, ← toI64_add_toI64]
    rw [← toI64_add_toI64] at hnonneg
    exact toI64_add_eq h0 hnonneg hmax hoff
  rename_i hcur
  split at h
  · split at h
    · cases h
      exact ⟨h0, hmax, fun hone => absurd hone hcur⟩
    · obtain ⟨h1, h2, -⟩ := hseek _ h
      exact ⟨h1, h2, fun hone => absurd hone hcur⟩
  · cases h
    exact ⟨h0, hmax, fun hone => absurd hone hcur⟩

theorem ioctlResult_refused {stored : List (List UInt8)} (hlen : stored.flatten.length < 2 ^ 31)
    {cmd : Nat} {seekto : AesdSeekto} {env : CallEnv}
    (h : ¬ (cmd = aesdcharIocseekto ∧ env = .quiet ∧ Accepts stored seekto)) (pos : Int) :
    ∃ ret < 0, ioctlResult stored pos cmd seekto env = (ret, pos) := by
  by_cases hcmd : cmd = aesdcharIocseekto
  · subst hcmd
    obtain ⟨interrupted, fault⟩ := env
    cases fault with
    | true => exact ⟨-eFault, by decide, by simp [ioctlResult]⟩
    | false =>
        cases interrupted with
        | true => exact ⟨-eRestartSys, by decide, by simp [ioctlResult]⟩
        | false =>
            have hacc : ¬ Accepts stored seekto := fun ha => h ⟨rfl, rfl, ha⟩
            refine ⟨-eInval, by decide, ?_⟩
            exact (ioctlResult_seekto hlen pos seekto).trans (if_neg hacc)
  · exact ⟨-eInval, by decide, by simp [ioctlResult, hcmd]⟩

/-- An `ioctl` on the file keeps the position in range exactly if it is not
accepted or its sum fits. -/
theorem inRange_ioctl
    (hr : RingHolds d.driver.heap d.driver.aesdDevice.circularBuffer held es log.commands)
    (hentries : d.driver.entries = log.stored)
    (hlen : log.contents.length < 2 ^ 31) (h0 : 0 ≤ d.fPos file)
    (hmax : d.fPos file < 2 ^ 63) {cmd : Nat} {seekto : AesdSeekto} {env : CallEnv}
    (hs : d.step (.ioctl file cmd seekto env) = some (r, d')) :
    (InRange file d (.ioctl file cmd seekto env) r d' ↔
      SumFits file d (.ioctl file cmd seekto env)) ∧ d'.fPos file < 2 ^ 63 := by
  simp only [Device.step, hr.aesdIoctl, Option.bind_eq_bind, Option.bind_some,
    Option.pure_def] at hs
  by_cases hacc : cmd = aesdcharIocseekto ∧ env = .quiet ∧ Accepts log.stored seekto
  · -- accepted: the sum is stored as it wraps
    obtain ⟨rfl, rfl, hacc⟩ := hacc
    have hlt := hacc.seekPos_lt
    have hlen' : log.stored.flatten.length < 2 ^ 31 := hlen
    rw [ioctlResult_seekto hlen', if_pos hacc] at hs
    cases hs
    have hpos : Function.update d.fPos file
        (toI64 (d.fPos file + seekPos log.stored seekto)) file
        = toI64 (d.fPos file + seekPos log.stored seekto) := Function.update_self ..
    refine ⟨⟨?_, ?_⟩, lt_of_eq_of_lt hpos (toI64_range _).2⟩
    · intro h _ _ _ _
      have hexact := h.exact _ (if_pos rfl) (Int.le_refl 0)
      have hmax' := (toI64_range (d.fPos file + seekPos log.stored seekto)).2
      rw [hentries] at hexact ⊢
      have hexact : toI64 (d.fPos file + seekPos log.stored seekto) = _ :=
        hpos.symm.trans hexact
      omega
    · intro hfits
      have hfits := hfits rfl rfl rfl (by rwa [hentries])
      rw [hentries] at hfits
      have hto := toI64_of_range (x := d.fPos file + seekPos log.stored seekto)
        (by omega) hfits
      refine (inRange_of_pos (hpos.trans hto) (by omega) hfits ?_).1
      intro sum hsum _
      rw [positionSum, if_pos rfl, hentries] at hsum
      cases hsum
      rfl
  · -- refused: the position stays
    have hfits : SumFits file d (.ioctl file cmd seekto env) := by
      intro _ hcmd henv ha
      rw [hentries] at ha
      exact absurd ⟨hcmd, henv, ha⟩ hacc
    obtain ⟨ret, hneg, hres⟩ := ioctlResult_refused hlen hacc (d.fPos file)
    rw [hres] at hs
    cases hs
    have hpos : Function.update d.fPos file (d.fPos file) file = d.fPos file :=
      Function.update_self ..
    refine ⟨⟨fun _ => hfits, fun _ => (inRange_of_pos hpos h0 hmax ?_).1⟩,
      lt_of_eq_of_lt hpos hmax⟩
    intro sum _ hret
    dsimp only at hret
    omega

theorem inRange_moves
    (hr : RingHolds d.driver.heap d.driver.aesdDevice.circularBuffer held es log.commands)
    (hlen : log.contents.length < 2 ^ 31) (h0 : 0 ≤ d.fPos file)
    (hmax : d.fPos file < 2 ^ 63) {op : Op} (hs : d.step op = some (r, d'))
    (hf : op.moves = some file) (hioctl : ∀ cmd seekto env, op ≠ .ioctl file cmd seekto env) :
    InRange file d op r d' ∧ d'.fPos file < 2 ^ 63 := by
  cases op with
  | write c => cases hf
  | «open» f =>
      cases hf
      cases hs
      exact inRange_of_pos (Function.update_self ..) (Int.le_refl 0) (by decide)
        fun _ h => by cases h
  | read c =>
      cases hf
      simp only [Device.step, hr.aesdRead, Option.bind_eq_bind, Option.bind_eq_some_iff] at hs
      obtain ⟨⟨ret, data, pos⟩, hread, hs⟩ := hs
      cases hs
      obtain ⟨hpos, hlt⟩ := readResult_position hlen h0 hmax hread
      refine inRange_of_pos (Function.update_self ..) (by dsimp only; omega) hlt ?_
      intro sum hsum _
      rw [positionSum, if_pos rfl] at hsum
      cases hsum
      exact hpos
  | llseek f off whence interrupted =>
      cases hf
      simp only [Device.step, hr.aesdLlseek, Option.bind_eq_bind, Option.bind_some,
        Option.pure_def] at hs
      generalize hres : llseekResult log.stored (d.fPos file) off whence interrupted = res at hs
      obtain ⟨ret, pos⟩ := res
      cases hs
      obtain ⟨hnonneg, hlt, hsum⟩ := llseekResult_position h0 hmax hres
      refine inRange_of_pos (Function.update_self ..) hnonneg hlt ?_
      intro sum hs hret
      simp only [positionSum, true_and] at hs
      split at hs
      · rename_i hcur
        cases hs
        exact hsum hcur hret
      · cases hs
  | ioctl f cmd seekto env =>
      cases hf
      exact absurd rfl (hioctl cmd seekto env)

/-- **One step** keeps the position of a file in range exactly if the sum of
an accepted `ioctl` fits. -/
theorem inRange_step
    (hr : RingHolds d.driver.heap d.driver.aesdDevice.circularBuffer held es log.commands)
    (hentries : d.driver.entries = log.stored)
    (hlen : log.contents.length < 2 ^ 31) (h0 : 0 ≤ d.fPos file)
    (hmax : d.fPos file < 2 ^ 63) {op : Op} (hs : d.step op = some (r, d')) :
    (InRange file d op r d' ↔ SumFits file d op) ∧ d'.fPos file < 2 ^ 63 := by
  have hgood : InRange file d op r d' ∧ d'.fPos file < 2 ^ 63 → SumFits file d op →
      (InRange file d op r d' ↔ SumFits file d op) ∧ d'.fPos file < 2 ^ 63 :=
    fun h hfits => ⟨⟨fun _ => hfits, fun _ => h.1⟩, h.2⟩
  by_cases hf : op.moves = some file
  case neg =>
    refine hgood (inRange_of_pos (step_other hs hf) h0 hmax ?_) ?_
    · intro sum hsum
      cases op <;> simp_all [positionSum, Op.moves]
    · cases op <;> simp_all [SumFits, Op.moves]
  by_cases hioctl : ∃ cmd seekto env, op = .ioctl file cmd seekto env
  · obtain ⟨cmd, seekto, env, rfl⟩ := hioctl
    exact inRange_ioctl hr hentries hlen h0 hmax hs
  · have hne : ∀ cmd seekto env, op ≠ .ioctl file cmd seekto env :=
      fun cmd seekto env he => hioctl ⟨cmd, seekto, env, he⟩
    refine hgood (inRange_moves hr hlen h0 hmax hs hf hne) ?_
    cases op with
    | ioctl f cmd seekto env =>
        rintro rfl
        exact absurd rfl (hne cmd seekto env)
    | _ => trivial

theorem measured_eq
    (hr : RingHolds d.driver.heap d.driver.aesdDevice.circularBuffer held es log.commands)
    (hentries : d.driver.entries = log.stored) : d.measured = log.measured := by
  have hfull := hr.full_iff
  have hlength := log.stored_length
  unfold Device.measured CommandLog.measured
  rw [hentries]
  by_cases hlt : log.stored.length < 10
  · rw [if_pos hlt, if_neg (by rw [hfull]; omega)]
    rfl
  · rw [if_neg hlt, if_pos (by rw [hfull]; omega)]

theorem endExact_other
    (hr : RingHolds d.driver.heap d.driver.aesdDevice.circularBuffer held es log.commands)
    {op : Op} (hs : d.step op = some (r, d')) (hop : ∀ off, op ≠ .llseek file off 2 false) :
    EndExact file d op r d' ∧ ¬ EndWraps file d op := by
  constructor
  · rintro off interrupted rfl hret
    cases interrupted with
    | false => exact absurd rfl (hop off)
    | true =>
        simp only [Device.step, hr.aesdLlseek] at hs
        cases hs
        have hret : (0 : Int) ≤ -eRestartSys := hret
        exact absurd hret (by decide)
  · rintro ⟨off, rfl, -⟩
    exact hop off rfl

/-- A position one byte before the end of what was measured, plus an offset, is
exact if it does not come out negative, but for the smallest offset. -/
theorem toI64_pred_add_eq_iff {m : Nat} {off : Int} (hm : m < 2 ^ 31)
    (hoff : -2 ^ 63 ≤ off ∧ off < 2 ^ 63) (h : 0 ≤ toI64 ((m : Int) - 1 + off)) :
    toI64 ((m : Int) - 1 + off) = (m : Int) - 1 + off ↔ ¬ (off = -2 ^ 63 ∧ m = 0) := by
  constructor
  · rintro heq ⟨rfl, rfl⟩
    rw [heq] at h
    omega
  · intro hne
    by_cases hbig : (m : Int) - 1 + off < 2 ^ 63
    · exact toI64_of_range (by omega) hbig
    · -- too large a sum wraps below zero
      simp only [toI64, Int.bmod] at h hbig
      split at h <;> omega

/-- **A `SEEK_END` is exact** unless it goes below the smallest `loff_t`. -/
theorem endExact_step
    (hr : RingHolds d.driver.heap d.driver.aesdDevice.circularBuffer held es log.commands)
    (hentries : d.driver.entries = log.stored)
    (hlen : log.contents.length < 2 ^ 31) {op : Op} (hs : d.step op = some (r, d')) :
    EndExact file d op r d' ↔ ¬ EndWraps file d op := by
  by_cases hop : ∃ off, op = .llseek file off 2 false
  case neg =>
    obtain ⟨hexact, hwraps⟩ := endExact_other hr hs fun off he => hop ⟨off, he⟩
    exact iff_of_true hexact hwraps
  obtain ⟨off, rfl⟩ := hop
  have hle := log.measured_le
  have hsum : toI64 ((log.measured : Int) - 1 + off)
      = toI64 ((log.measured : Int) - 1 + toI64 off) := (toI64_add_toI64 ..).symm
  simp only [Device.step, hr.aesdLlseek, llseekResult_end hlen, hsum, Option.bind_eq_bind,
    Option.bind_some, Option.pure_def] at hs
  have hwraps : EndWraps file d (.llseek file off 2 false) ↔
      toI64 off = -2 ^ 63 ∧ log.measured = 0 := by
    rw [← measured_eq hr hentries]
    constructor
    · rintro ⟨off', heq, h⟩
      cases heq
      exact h
    · exact fun h => ⟨off, rfl, h⟩
  rw [hwraps]
  rcases aesdLlseekTo_cases (d.fPos file) (toI64 ((log.measured : Int) - 1 + toI64 off))
    with ⟨hneg, heq⟩ | ⟨hnonneg, heq⟩ <;> rw [heq] at hs <;> cases hs
  · -- refused, which the wrapped sum would not be
    refine iff_of_true (fun off' interrupted _ hret => ?_) ?_
    · have hret : (0 : Int) ≤ -eInval := hret
      exact absurd hret (by decide)
    · rintro ⟨ho, hm⟩
      rw [ho, hm] at hneg
      revert hneg
      decide
  · rw [← toI64_pred_add_eq_iff (Nat.lt_of_le_of_lt hle hlen) (toI64_range off) hnonneg,
      ← measured_eq hr hentries]
    rw [← measured_eq hr hentries] at hnonneg
    have hpos : ∀ x, Function.update d.fPos file x file = x :=
      fun x => Function.update_self ..
    constructor
    · intro h
      exact (hpos _).symm.trans (h off false rfl hnonneg)
    · rintro h off' interrupted heq -
      cases heq
      exact (hpos _).trans h

end

/-! ## Runs -/

/-- **Positions stay in range exactly** in the runs in which every accepted
`ioctl` has room for its sum; and the sums of `SEEK_END`, which leave the old
position out, are exact in the runs in which none goes below the smallest
`loff_t`. -/
theorem positions_in_range_iff {limit : Nat} {hl : limit ≤ 2 ^ 56} {fPos : Nat → Int}
    {d : Device} (hd : Reachable Device.step (.init limit hl fPos) d) {file : Nat}
    (h0 : d.fPos file = 0) {ops : List Op}
    (hlen : EachStep Device.step
      (fun e _ _ _ => e.driver.entries.flatten.length < 2 ^ 31) d ops) :
    (EachStep Device.step (InRange file) d ops ↔
      EachStep Device.step (fun e op _ _ => SumFits file e op) d ops) ∧
    (EachStep Device.step (EndExact file) d ops ↔
      EachStep Device.step (fun e op _ _ => ¬ EndWraps file e op) d ops) := by
  have hnext : ∀ {e e' : Device} {op : Op} {r : Reply},
      Reachable Device.step (.init limit hl fPos) e → e.step op = some (r, e') →
      Reachable Device.step (.init limit hl fPos) e' := by
    intro e e' op r he hs
    exact he.trans ⟨[op], [r], run_cons.mpr ⟨r, e', [], hs, rfl, rfl⟩⟩
  constructor
  · refine eachStep_iff (I := fun e => Reachable Device.step (.init limit hl fPos) e ∧
      0 ≤ e.fPos file ∧ e.fPos file < 2 ^ 63) ?_ ⟨hd, by omega, by omega⟩ hlen
    rintro e op r e' ⟨he, hmin, hmax⟩ hsmall hs
    obtain ⟨log, held, es, hr, hentries⟩ := reachable_ring he
    rw [hentries] at hsmall
    obtain ⟨hiff, hlt⟩ := inRange_step hr hentries hsmall hmin hmax hs
    exact ⟨hiff, fun h => ⟨hnext he hs, h.nonneg, hlt⟩⟩
  · refine eachStep_iff (I := Reachable Device.step (.init limit hl fPos)) ?_ hd hlen
    intro e op r e' he hsmall hs
    obtain ⟨log, held, es, hr, hentries⟩ := reachable_ring he
    rw [hentries] at hsmall
    exact ⟨endExact_step hr hentries hsmall hs, fun _ => hnext he hs⟩

/-- A seek to the second byte of the one command. -/
theorem positions_in_range_iff_second_byte : ∃ d : Device,
    d.driver.entries = [[97, 98, 10]] ∧
    (EachStep Device.step (InRange 0) d [.ioctl 0 aesdcharIocseekto ⟨0, 1⟩ .quiet] ↔
      EachStep Device.step (fun e op _ _ => SumFits 0 e op) d
        [.ioctl 0 aesdcharIocseekto ⟨0, 1⟩ .quiet]) := by
  obtain ⟨d, hd, he, hpos⟩ := exists_one_command
  have hlen : d.driver.entries.flatten.length < 2 ^ 31 := by
    rw [he]
    decide
  refine ⟨d, he, (positions_in_range_iff hd hpos ?_).1⟩
  exact fun _ _ _ => ⟨hlen, trivial⟩

/-- The same seek from the largest position. -/
theorem ioctl_wraps_position :
    ¬ ∀ d, Reachable Device.step (.init 4096 (by decide) fun _ => 0) d → ∀ file,
      d.fPos file = 0 → ∀ ops, EachStep Device.step
        (fun e _ _ _ => e.driver.entries.flatten.length < 2 ^ 31) d ops →
      EachStep Device.step (InRange file) d ops := by
  intro hall
  have h : (run Device.step (.init 4096 (by decide) fun _ => 0)
      [.write (.quiet 0 [97, 98, 10] (by decide))]).map
        (fun p => (p.2.driver.entries, p.2.fPos 0,
          aesdIoctl p.2.driver (2 ^ 63 - 1) aesdcharIocseekto ⟨0, 1⟩ .quiet))
      = some ([[97, 98, 10]], 0, some (0, -2 ^ 63)) := by decide
  obtain ⟨⟨rs, d⟩, hr, heq⟩ := Option.map_eq_some_iff.mp h
  simp only [Prod.mk.injEq] at heq
  obtain ⟨he, hpos, hcall⟩ := heq
  have hlen : d.driver.entries.flatten.length < 2 ^ 31 := by
    rw [he]
    decide
  -- the first seek leaves the driver as it is
  have hseek : d.step (.llseek 0 (2 ^ 63 - 1) 0 false)
      = some (⟨2 ^ 63 - 1, []⟩, ⟨d.driver, Function.update d.fPos 0 (2 ^ 63 - 1)⟩) := rfl
  have hioctl : (⟨d.driver, Function.update d.fPos 0 (2 ^ 63 - 1)⟩ : Device).step
      (.ioctl 0 aesdcharIocseekto ⟨0, 1⟩ .quiet)
      = some (⟨0, []⟩, ⟨d.driver, Function.update
          (Function.update d.fPos 0 (2 ^ 63 - 1)) 0 (-2 ^ 63)⟩) := by
    simp only [Device.step, Function.update_self, hcall, Option.bind_eq_bind,
      Option.bind_some, Option.pure_def]
  have hruns := hall d ⟨_, rs, hr⟩ 0 hpos
    [.llseek 0 (2 ^ 63 - 1) 0 false, .ioctl 0 aesdcharIocseekto ⟨0, 1⟩ .quiet] ?_
  · have hneg := ((hruns _ _ hseek).2 _ _ hioctl).1.nonneg
    simp only [Function.update_self] at hneg
    exact absurd hneg (by decide)
  · intro r d' hs
    rw [hseek] at hs
    cases hs
    exact ⟨hlen, fun _ _ _ => ⟨hlen, trivial⟩⟩

end Aesd.Driver
