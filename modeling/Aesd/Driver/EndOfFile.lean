import Aesd.Driver.Reads
import Aesd.Driver.SeekTo

/-!
# Where the file ends

Two operations have a notion of the end. A read returns 0 there, and reading
until then delivers the contents from the file's position on
(`ReaderAt.readsToEnd_iff`). `aesd_llseek` with `SEEK_END` adds up the sizes
in the ring, unless it is full (`seekEnd_size_iff`), and goes to one less
than the sum, so the two never agree (`seek_end_never_agrees`). And a read
whose copy fails also returns 0 (`read_classes_iff`).
-/

namespace Aesd.Driver

open Aesd.Lib

/-! ## Reading to the end -/

/-- Reads of `file`, with nothing in their way. -/
def readsOf (file : Nat) (counts : List Nat) : List Op :=
  counts.map fun n => .read (.quiet file n)

/-- Reading `file` until a read returns 0 delivers `data`. -/
def ReadsToEnd (d : Device) (file : Nat) (data : List UInt8) : Prop :=
  ∃ counts rs d', (∀ n ∈ counts, 0 < n) ∧
    run Device.step d (readsOf file counts) = some (rs, d') ∧
    (∃ rs' r, rs = rs' ++ [r] ∧ r.ret = 0) ∧ received file (readsOf file counts) rs = data

/-- `file` is at byte `p` of the contents of `log`, or at their end. -/
structure ReaderAt (d : Device) (log : CommandLog) (file p : Nat) : Prop where
  ring : ∃ held es, RingHolds d.driver.heap d.driver.aesdDevice.circularBuffer held es
    log.commands
  fPos : d.fPos file = p
  le : p ≤ log.contents.length

section
variable {d d' : Device} {log : CommandLog} {file p : Nat}

/-- **One read** delivers what comes next, and nothing only at the end. -/
theorem ReaderAt.read (h : ReaderAt d log file p) {n : Nat} (hn : 0 < n) :
    ∃ (next : List UInt8) (d' : Device),
      d.step (.read (.quiet file n)) = some (⟨(next.length : Int), next⟩, d') ∧
      ReaderAt d' log file (p + next.length) ∧
      log.contents.drop p = next ++ log.contents.drop (p + next.length) ∧
      (next = [] ↔ p = log.contents.length) := by
  obtain ⟨held, es, hr⟩ := h.ring
  have hle := h.le
  have hlen := hr.contents_lt
  have hfPos := h.fPos
  have hfrom : log.readFrom (d.fPos file) = log.contents.drop p := by
    rw [hfPos, CommandLog.readFrom, if_neg (by omega), Int.toNat_natCast]
  have hne : log.stored ≠ [] ∨ d.fPos file = 0 := by
    rw [or_iff_not_imp_left, not_not]
    intro hnil
    rw [CommandLog.contents, hnil] at hle
    rw [hfPos, Nat.le_zero.mp hle]
    rfl
  have hquiet : CallEnv.quiet.interrupted = false := rfl
  obtain ⟨next, hread, hpre, hnil⟩ :=
    readResult_next log n hquiet rfl hlen (by omega) (by omega) hne
  rw [hfrom] at hpre hnil
  obtain ⟨tail, htail⟩ := hpre
  have hdrop : log.contents.drop (p + next.length) = tail := by
    rw [← List.drop_drop, ← htail, List.drop_left]
  have hroom : p + next.length ≤ log.contents.length := by
    have := congrArg List.length htail
    rw [List.length_append, List.length_drop] at this
    omega
  refine ⟨next, { d with fPos := Function.update d.fPos file (d.fPos file + next.length) },
    ?_, ⟨⟨held, es, hr⟩, ?_, hroom⟩, by rw [hdrop, htail], ?_⟩
  · have hstep := hr.aesdRead (d.fPos file) n .quiet
    rw [hread] at hstep
    have henv : (ReadCall.quiet file n).env = .quiet := rfl
    simp only [Device.step, henv]
    simp only [ReadCall.quiet, hstep, Option.bind_eq_bind, Option.bind_some,
      Option.pure_def]
  · show Function.update d.fPos file (d.fPos file + next.length) file = _
    rw [Function.update_self, hfPos]
    push_cast
    rfl
  · rw [hnil hn, List.drop_eq_nil_iff]
    omega

/-- **Any reads** deliver the bytes from where they start to where they
stop. -/
theorem ReaderAt.run {counts : List Nat} (h : ReaderAt d log file p)
    (hcounts : ∀ n ∈ counts, 0 < n) {rs : List Reply}
    (hrun : Lib.run Device.step d (readsOf file counts) = some (rs, d')) :
    ∃ p', ReaderAt d' log file p' ∧ log.contents.drop p
      = received file (readsOf file counts) rs ++ log.contents.drop p' := by
  induction counts generalizing d p rs with
  | nil =>
      cases hrun
      exact ⟨p, h, rfl⟩
  | cons n counts ih =>
      obtain ⟨r, d₁, rs', hs, hrest, rfl⟩ := run_cons.mp hrun
      obtain ⟨next, d₂, hs', h', hdrop, -⟩ := h.read (hcounts n (by simp))
      rw [hs'] at hs
      cases hs
      obtain ⟨p', hp', htail⟩ := ih h' (fun m hm => hcounts m (by simp [hm])) hrest
      have hrec : received file (readsOf file (n :: counts)) (⟨(next.length : Int), next⟩ :: rs')
          = next ++ received file (readsOf file counts) rs' := by
        simp [received, readsOf, delivered, ReadCall.quiet]
      exact ⟨p', hp', by rw [hdrop, htail, hrec, List.append_assoc]⟩

theorem ReaderAt.reaches_end (h : ReaderAt d log file p) :
    ReadsToEnd d file (log.contents.drop p) := by
  induction hm : log.contents.length - p using Nat.strong_induction_on generalizing d p with
  | _ m ih =>
      obtain ⟨next, d', hs, h', hdrop, hend⟩ := h.read Nat.one_pos
      by_cases hnext : next = []
      · subst hnext
        refine ⟨[1], [⟨0, []⟩], d', by simp, run_cons.mpr ⟨_, d', [], hs, rfl, rfl⟩,
          ⟨[], _, rfl, rfl⟩, ?_⟩
        rw [hend.mp rfl, List.drop_length]
        simp [received, readsOf, delivered, ReadCall.quiet]
      · have hpos := List.length_pos_of_ne_nil hnext
        have hle := h'.le
        obtain ⟨counts, rs, d'', hcounts, hrun, ⟨rs', r, rfl, hr⟩, hrec⟩ :=
          ih (log.contents.length - (p + next.length)) (by omega) h' rfl
        refine ⟨1 :: counts, _, d'', ?_, run_cons.mpr ⟨_, d', _, hs, hrun, rfl⟩,
          ⟨⟨(next.length : Int), next⟩ :: rs', r, rfl, hr⟩, ?_⟩
        · simpa using hcounts
        · rw [hdrop, ← hrec]
          simp [received, readsOf, delivered, ReadCall.quiet]

/-- **Reading to the end delivers the rest of the contents**, and nothing
else. -/
theorem ReaderAt.readsToEnd_iff (h : ReaderAt d log file p) {data : List UInt8} :
    ReadsToEnd d file data ↔ data = log.contents.drop p := by
  constructor
  · rintro ⟨counts, rs, d', hcounts, hrun, ⟨rs', r, rfl, hr⟩, rfl⟩
    -- the last read is at the end
    rcases List.eq_nil_or_concat counts with rfl | ⟨init, n, rfl⟩
    · have := run_length hrun
      simp [readsOf] at this
    have hops : readsOf file (init ++ [n]) = readsOf file init ++ [.read (.quiet file n)] := by
      simp [readsOf]
    rw [List.concat_eq_append] at hcounts hrun ⊢
    rw [hops] at hrun ⊢
    obtain ⟨rs₁, d₁, q, hrun₁, hs, hrs⟩ := run_snoc.mp hrun
    obtain ⟨rfl, hq⟩ := List.append_inj' hrs rfl
    cases hq
    obtain ⟨p', hp', hdrop⟩ := h.run (fun m hm => hcounts m (by simp [hm])) hrun₁
    obtain ⟨next, d₂, hs', -, -, hend⟩ := hp'.read (hcounts n (by simp))
    rw [hs'] at hs
    cases hs
    have hnil : next = [] := by
      have hr : (next.length : Int) = 0 := hr
      rw [← List.length_eq_zero_iff]
      omega
    subst hnil
    rw [received_concat _ _ (run_length hrun₁), hdrop, hend.mp rfl, List.drop_length]
    simp [delivered, ReadCall.quiet]
  · rintro rfl
    exact h.reaches_end

end

/-! ## `SEEK_END` -/

section
variable {limit : Nat} {hl : limit ≤ 2 ^ 56} {fPos : Nat → Int} {d : Device}

/-- Where a command is stored, there are bytes. -/
theorem CommandLog.contents_pos (log : CommandLog) (h : log.stored ≠ []) :
    0 < log.contents.length := by
  obtain ⟨c, cs, hcs⟩ := List.exists_cons_of_ne_nil h
  have hc := log.stored_pos c (by simp [hcs])
  rw [CommandLog.contents, hcs, List.flatten_cons, List.length_append]
  omega

/-- **`SEEK_END` measures the contents exactly when the ring is not full**: on
a full ring its loop does not start. What there is to measure is what a reader
from position 0 receives. -/
theorem seekEnd_size_iff (hd : Reachable Device.step (.init limit hl fPos) d)
    (hlen : d.driver.entries.flatten.length < 2 ^ 31) :
    let ring := d.driver.aesdDevice.circularBuffer
    let contents := d.driver.entries.flatten
    (sumSizes ring ring.inOffs maxWriteOperationsSupported ring.outOffs 0
        = some (contents.length : Int) ↔ ring.full = false) ∧
      contents.length = ring.sizes.sum ∧
      ∀ file, ReadsToEnd ⟨d.driver, Function.update d.fPos file 0⟩ file contents := by
  intro ring contents
  obtain ⟨log, held, es, hr, hentries⟩ := reachable_ring hd
  have hcontents : contents = log.contents := congrArg List.flatten hentries
  rw [hentries] at hlen
  rw [hcontents]
  refine ⟨?_, ?_, fun file => ?_⟩
  · have hfull : ring.full = false ↔ log.stored.length < 10 := by
      rw [← Bool.not_eq_true, hr.full_iff, log.stored_length]
      omega
    rw [hfull, hr.fileSize, Option.some.injEq]
    by_cases hlt : log.stored.length < 10
    · rw [if_pos hlt]
      simp only [hlt, iff_true]
      exact sizesSum_eq hlen
    · rw [if_neg hlt]
      simp only [hlt, iff_false]
      have hpos := log.contents_pos (by
        rintro hnil
        rw [hnil] at hlt
        simp at hlt)
      omega
  · rw [hr.sizes_eq, CommandLog.contents, List.length_flatten]
  · have h0 : ReaderAt ⟨d.driver, Function.update d.fPos file 0⟩ log file 0 :=
      ⟨⟨held, es, hr⟩, Function.update_self file (0 : Int) d.fPos, Nat.zero_le _⟩
    exact h0.readsToEnd_iff.mpr rfl

theorem seekEnd_size_iff_one_command : ∃ d : Device, d.driver.entries = [[97, 98, 10]] ∧
    ReadsToEnd ⟨d.driver, Function.update d.fPos 0 0⟩ 0 [97, 98, 10] := by
  obtain ⟨d, hd, he, -⟩ := exists_one_command
  have hlen : d.driver.entries.flatten.length < 2 ^ 31 := by
    rw [he]
    decide
  have h := (seekEnd_size_iff hd hlen).2.2 0
  rw [he] at h
  exact ⟨d, he, h⟩

/-- Ten one-byte commands. -/
theorem full_ring_measures_zero :
    ¬ ∀ d, Reachable Device.step (.init 4096 (by decide) fun _ => 0) d →
      d.driver.entries.flatten.length < 2 ^ 31 →
      let ring := d.driver.aesdDevice.circularBuffer
      sumSizes ring ring.inOffs maxWriteOperationsSupported ring.outOffs 0
        = some (d.driver.entries.flatten.length : Int) := by
  intro hall
  have h : (run Device.step (.init 4096 (by decide) fun _ => 0)
      (List.replicate 10 (.write (.quiet 0 [10] (by decide))))).map
        (fun p => (p.2.driver.entries.flatten.length,
          sumSizes p.2.driver.aesdDevice.circularBuffer
            p.2.driver.aesdDevice.circularBuffer.inOffs maxWriteOperationsSupported
            p.2.driver.aesdDevice.circularBuffer.outOffs 0))
      = some (10, some 0) := by decide
  obtain ⟨⟨rs, d⟩, hr, heq⟩ := Option.map_eq_some_iff.mp h
  simp only [Prod.mk.injEq] at heq
  obtain ⟨hten, hzero⟩ := heq
  have hsize := hall d ⟨_, rs, hr⟩ (by rw [hten]; decide)
  dsimp only at hsize
  rw [hzero, hten] at hsize
  cases hsize

/-! ## `SEEK_END` and read -/

/-- `lseek(file, 0, SEEK_END)` succeeds, and a read then returns 0. -/
def EndIsEnd (d : Device) (file : Nat) : Prop :=
  ∃ r d', d.step (.llseek file 0 2 false) = some (r, d') ∧ 0 ≤ r.ret ∧
    ∀ n, 0 < n → ∃ r' d'', d'.step (.read (.quiet file n)) = some (r', d'') ∧ r'.ret = 0

/-- `lseek(file, -k, SEEK_END)` succeeds, and reading to the end then delivers
the last `k` bytes. -/
def EndMinus (d : Device) (file k : Nat) : Prop :=
  ∃ r d', d.step (.llseek file (-(k : Int)) 2 false) = some (r, d') ∧ 0 ≤ r.ret ∧
    ReadsToEnd d' file
      (d.driver.entries.flatten.drop (d.driver.entries.flatten.length - k))

section
variable {log : CommandLog} {file : Nat}

/-- What `SEEK_END` measures. -/
def CommandLog.measured (log : CommandLog) : Nat :=
  if log.stored.length < 10 then log.contents.length else 0

theorem CommandLog.measured_le (log : CommandLog) :
    log.measured ≤ log.contents.length := by
  unfold measured
  split <;> omega

/-- `SEEK_END` counts from one byte before the end of what it measured. -/
theorem llseekResult_end (hlen : log.contents.length < 2 ^ 31) (pos off : Int) :
    llseekResult log.stored pos off 2 false
      = aesdLlseekTo pos (toI64 ((log.measured : Int) - 1 + off)) := by
  have hle := log.measured_le
  have hsize : (if log.stored.length < 10 then sizesSum log.stored else 0)
      = (log.measured : Int) := by
    unfold CommandLog.measured
    split
    · exact sizesSum_eq hlen
    · rfl
  show aesdLlseekTo pos (toI64 (toI32
    ((if log.stored.length < 10 then sizesSum log.stored else 0) - 1) + off)) = _
  rw [hsize, toI32_of_range (by omega) (by omega)]

theorem RingHolds.seekEnd_step {held : Ptr} {es : List AesdBufferEntry}
    (hr : RingHolds d.driver.heap d.driver.aesdDevice.circularBuffer held es log.commands)
    (hlen : log.contents.length < 2 ^ 31) (file : Nat) {k : Nat} (hk : k < 2 ^ 32) :
    let result := aesdLlseekTo (d.fPos file) ((log.measured : Int) - 1 - k)
    d.step (.llseek file (-(k : Int)) 2 false)
      = some (⟨result.1, []⟩, ⟨d.driver, Function.update d.fPos file result.2⟩) := by
  intro result
  have hle := log.measured_le
  have hto : toI64 ((log.measured : Int) - 1 + -(k : Int)) = (log.measured : Int) - 1 - k := by
    rw [toI64_of_range (by omega) (by omega)]
    omega
  simp only [Device.step, hr.aesdLlseek, llseekResult_end hlen, hto, Option.bind_eq_bind,
    Option.bind_some, Option.pure_def, result]

/-- Where it succeeds, the reader is one byte further from the end than asked
for. -/
theorem RingHolds.seekEnd_readerAt {held : Ptr} {es : List AesdBufferEntry}
    (hr : RingHolds d.driver.heap d.driver.aesdDevice.circularBuffer held es log.commands)
    (hlen : log.contents.length < 2 ^ 31) {k : Nat} (hk : k < 2 ^ 32) {r : Reply}
    {d' : Device} (hs : d.step (.llseek file (-(k : Int)) 2 false) = some (r, d'))
    (hret : 0 ≤ r.ret) :
    k + 1 ≤ log.contents.length ∧
      ReaderAt d' log file (log.contents.length - (k + 1)) := by
  have hle := log.measured_le
  rw [hr.seekEnd_step hlen file hk] at hs
  cases hs
  simp only [aesdLlseekTo] at hret ⊢
  by_cases hneg : (log.measured : Int) - 1 - k < 0
  · rw [if_pos hneg] at hret
    have hret : (0 : Int) ≤ -eInval := hret
    exact absurd hret (by decide)
  · -- something was measured, so the ring is not full and all of it was
    have hall : log.measured = log.contents.length := by
      unfold CommandLog.measured at hneg ⊢
      split
      · rfl
      · rename_i hfull
        rw [if_neg hfull] at hneg
        omega
    rw [if_neg hneg]
    rw [hall] at hneg ⊢
    refine ⟨by omega, ⟨⟨held, es, hr⟩, ?_, by omega⟩⟩
    show Function.update d.fPos file _ file = _
    rw [Function.update_self]
    omega

end

/-- **`SEEK_END` and read never agree.** On no device does seeking to the end
leave a reader at the end, and for no `k` does seeking `k` bytes before it
leave the last `k` bytes to read. -/
theorem seek_end_never_agrees (hd : Reachable Device.step (.init limit hl fPos) d)
    (hlen : d.driver.entries.flatten.length < 2 ^ 31) (file : Nat) :
    ¬ EndIsEnd d file ∧
    ∀ k, 1 ≤ k → k ≤ d.driver.entries.flatten.length → ¬ EndMinus d file k := by
  obtain ⟨log, held, es, hr, hentries⟩ := reachable_ring hd
  unfold EndMinus
  rw [hentries] at hlen ⊢
  have hlen : log.contents.length < 2 ^ 31 := hlen
  constructor
  · rintro ⟨r, d', hs, hret, hread⟩
    obtain ⟨hle, hat⟩ := hr.seekEnd_readerAt (k := 0) hlen (by decide) hs hret
    obtain ⟨next, d₁, hs₁, -, -, hend⟩ := hat.read Nat.one_pos
    obtain ⟨r', d₂, hs₂, hzero⟩ := hread 1 Nat.one_pos
    rw [hs₁] at hs₂
    cases hs₂
    -- there is a byte to read
    have hne : next ≠ [] := fun hnil => by
      have := hend.mp hnil
      omega
    have hpos := List.length_pos_of_ne_nil hne
    dsimp only at hzero
    omega
  · rintro k - hk ⟨r, d', hs, hret, hread⟩
    have hk : k ≤ log.contents.length := hk
    obtain ⟨hle, hat⟩ := hr.seekEnd_readerAt hlen (by omega) hs hret
    have hdata := congrArg List.length (hat.readsToEnd_iff.mp hread)
    rw [List.length_drop, List.length_drop] at hdata
    have hdata : log.contents.length - (log.contents.length - k)
        = log.contents.length - (log.contents.length - (k + 1)) := hdata
    omega

theorem seek_end_never_agrees_one_command : ∃ d : Device,
    d.driver.entries = [[97, 98, 10]] ∧ ¬ EndMinus d 0 1 := by
  obtain ⟨d, hd, he, -⟩ := exists_one_command
  have hlen : d.driver.entries.flatten.length < 2 ^ 31 := by
    rw [he]
    decide
  exact ⟨d, he, (seek_end_never_agrees hd hlen 0).2 1 (by decide) (by rw [he]; decide)⟩

/-- `lseek` to the end of a device just initialised. -/
theorem seek_end_of_empty_fails :
    ¬ ∀ d, Reachable Device.step (.init 4096 (by decide) fun _ => 0) d →
      d.driver.entries.flatten.length < 2 ^ 31 → EndIsEnd d 0 := by
  intro hall
  obtain ⟨r, d', hs, hret, -⟩ := hall _ (.refl _) (by decide)
  have h : ((Device.init 4096 (by decide) fun _ => 0).step (.llseek 0 0 2 false)).map
      (fun p => p.1.ret) = some (-22) := by decide
  rw [hs, Option.map_some, Option.some.injEq] at h
  rw [h] at hret
  exact absurd hret (by decide)

/-! ## What a read returns -/

/-- The three kinds of result of a read, told apart: 0 at the end, a count
where bytes were copied, else an error and nothing has changed. -/
structure ReadClasses (d : Device) (c : ReadCall) (r : Reply) (d' : Device) : Prop where
  zero : r.ret = 0 ↔ c.env.interrupted = false ∧
    (d.driver.entries.flatten.length : Int) ≤ d.fPos c.file
  copied : ∀ n : Nat, 0 < n →
    (r.ret = n ↔ r.data.length = n ∧ d'.fPos c.file = d.fPos c.file + n)
  error : c.env.interrupted = true ∨
      (c.env.fault = true ∧ d.fPos c.file < d.driver.entries.flatten.length) →
    r.ret < 0 ∧ r.data = [] ∧ d' = d

/-- The copy is reached, and fails. -/
def CopyFails (d : Device) (c : ReadCall) : Prop :=
  c.env.interrupted = false ∧ c.env.fault = true ∧
    d.fPos c.file < d.driver.entries.flatten.length

section
variable {log : CommandLog} {count : Nat} {env : CallEnv} {pos : Int}

theorem readResult_faulted (hint : env.interrupted = false) (hfault : env.fault = true)
    (hlen : log.contents.length < 2 ^ 60) (h0 : 0 ≤ pos) (hlt : pos < log.contents.length)
    (hcount : 0 < count) : readResult log.stored pos count env = some (0, [], pos) := by
  have hu : (toU64 pos : Int) = pos := toU64_of_range h0 (by omega)
  have hp : toU64 pos < (log.stored.map List.length).sum := by
    rw [← List.length_flatten]
    have hlt : pos < (log.stored.flatten.length : Int) := hlt
    omega
  obtain ⟨i, k, hl⟩ := locate_isSome hp
  obtain ⟨hi, hk, -⟩ := locate_eq_iff_bytePos.mp hl
  have hne : log.stored ≠ [] := List.ne_nil_of_length_pos (by omega)
  -- there is a byte to copy
  have hbytes : ((log.stored[i]).drop k).take count ≠ [] := by
    apply List.ne_nil_of_length_pos
    rw [List.length_take, List.length_drop]
    omega
  simp [readResult, hint, hfault, hne, hl, List.getElem?_eq_getElem hi, hbytes]

end

section
variable {d' : Device} {c : ReadCall}

theorem ReadClasses.interrupted (hint : c.env.interrupted = true) :
    ReadClasses d c ⟨-eRestartSys, []⟩ d := by
  refine ⟨by simp [eRestartSys, hint], ?_, fun _ => ⟨by decide, rfl, rfl⟩⟩
  intro n hn
  simp only [eRestartSys, List.length_nil]
  omega

theorem ReadClasses.atEnd (hint : c.env.interrupted = false)
    (hend : (d.driver.entries.flatten.length : Int) ≤ d.fPos c.file) :
    ReadClasses d c ⟨0, []⟩ d := by
  refine ⟨⟨fun _ => ⟨hint, hend⟩, fun _ => rfl⟩, ?_, ?_⟩
  · intro n hn
    simp only [List.length_nil]
    omega
  · rintro (h | ⟨-, h⟩)
    · rw [hint] at h
      cases h
    · omega

theorem ReadClasses.bytes (hint : c.env.interrupted = false) (hfault : c.env.fault = false)
    (hlt : d.fPos c.file < d.driver.entries.flatten.length) {data : List UInt8}
    (hdata : 0 < data.length) (hpos : d'.fPos c.file = d.fPos c.file + data.length) :
    ReadClasses d c ⟨data.length, data⟩ d' := by
  refine ⟨?_, ?_, ?_⟩
  · simp only [hint, true_and]
    omega
  · intro n hn
    simp only [hpos]
    omega
  · rintro (h | ⟨h, -⟩)
    · rw [hint] at h
      cases h
    · rw [hfault] at h
      cases h

theorem CopyFails.not_readClasses (h : CopyFails d c) : ¬ ReadClasses d c ⟨0, []⟩ d' := by
  intro hclasses
  have hend := (hclasses.zero.mp rfl).2
  have hlt := h.2.2
  omega

end

theorem read_step {log : CommandLog} {held : Ptr} {es : List AesdBufferEntry}
    (hr : RingHolds d.driver.heap d.driver.aesdDevice.circularBuffer held es log.commands)
    {c : ReadCall} {ret : Int} {data : List UInt8} {pos : Int}
    (h : readResult log.stored (d.fPos c.file) c.count c.env = some (ret, data, pos)) :
    d.step (.read c) = some (⟨ret, data⟩,
      ⟨d.driver, Function.update d.fPos c.file pos⟩) := by
  simp only [Device.step, hr.aesdRead, h, Option.bind_eq_bind, Option.bind_some,
    Option.pure_def]

/-- **A read returns 0 only at the end exactly unless its copy fails**: a
failed copy also returns 0, which a caller takes for the end. -/
theorem read_classes_iff (hd : Reachable Device.step (.init limit hl fPos) d)
    (hne : d.driver.entries ≠ []) {c : ReadCall} (h0 : 0 ≤ d.fPos c.file)
    (hmax : d.fPos c.file < 2 ^ 63) (hcount : 0 < c.count) :
    ∃ r d', d.step (.read c) = some (r, d') ∧ d'.driver = d.driver ∧
      (ReadClasses d c r d' ↔ ¬ CopyFails d c) := by
  obtain ⟨log, held, es, hr, hentries⟩ := reachable_ring hd
  have hlen := hr.contents_lt
  have htotal : d.driver.entries.flatten.length = log.contents.length := by
    rw [hentries, CommandLog.contents]
  rw [hentries] at hne
  have hsame : (⟨d.driver, Function.update d.fPos c.file (d.fPos c.file)⟩ : Device) = d := by
    rw [Function.update_eq_self]
  cases hint : c.env.interrupted with
  | true =>
      have hread : readResult log.stored (d.fPos c.file) c.count c.env
          = some (-eRestartSys, [], d.fPos c.file) := by
        simp [readResult, hint]
      refine ⟨_, _, read_step hr hread, rfl, ?_⟩
      rw [hsame]
      have hfails : ¬ CopyFails d c := fun h => by simp [CopyFails, hint] at h
      exact ⟨fun _ => hfails, fun _ => .interrupted hint⟩
  | false =>
      by_cases hlt : d.fPos c.file < log.contents.length
      · have hlt' : d.fPos c.file < d.driver.entries.flatten.length := by rwa [htotal]
        cases hfault : c.env.fault with
        | true =>
            have hread := readResult_faulted hint hfault hlen h0 hlt hcount
            refine ⟨_, _, read_step hr hread, rfl, ?_⟩
            have hfails : CopyFails d c := ⟨hint, hfault, hlt'⟩
            exact ⟨fun h => absurd h hfails.not_readClasses, fun h => absurd hfails h⟩
        | false =>
            obtain ⟨before, command, after, hsplit, -, hin, hread⟩ :=
              readResult_inside log c.count hint hfault hlen h0 hlt
            have hcommand : before.flatten.length + command.length ≤ log.contents.length := by
              rw [CommandLog.contents, hsplit]
              simp
            dsimp only at hread
            generalize hn : min c.count (before.flatten.length + command.length
              - (d.fPos c.file).toNat) = n at hread
            have hdata : ((log.contents.drop (d.fPos c.file).toNat).take n).length = n := by
              rw [List.length_take, List.length_drop]
              omega
            refine ⟨_, _, read_step hr hread, rfl, ?_⟩
            have hfails : ¬ CopyFails d c := fun h => by simp [CopyFails, hfault] at h
            refine ⟨fun _ => hfails, fun _ => ?_⟩
            have hbytes : ReadClasses d c ⟨_, (log.contents.drop (d.fPos c.file).toNat).take n⟩
                ⟨d.driver, Function.update d.fPos c.file (d.fPos c.file + n)⟩ :=
              .bytes hint hfault hlt' (by rw [hdata]; omega)
                (by rw [hdata]; exact Function.update_self ..)
            rwa [hdata] at hbytes
      · have hend : (log.contents.length : Int) ≤ d.fPos c.file := by omega
        have hu : (toU64 (d.fPos c.file) : Int) = d.fPos c.file :=
          toU64_of_range h0 (by omega)
        have hout : log.contents.length ≤ toU64 (d.fPos c.file) := by omega
        have hread := readResult_outside log c.count hint hout (.inl hne)
        refine ⟨_, _, read_step hr hread, rfl, ?_⟩
        rw [hsame]
        have hfails : ¬ CopyFails d c := fun h => hlt (by rw [← htotal]; exact h.2.2)
        exact ⟨fun _ => hfails, fun _ => .atEnd hint (by rw [htotal]; exact hend)⟩

theorem read_classes_iff_second_byte : ∃ d : Device, d.driver.entries = [[97, 98, 10]] ∧
    ∃ r d', d.step (.read (.quiet 0 2)) = some (r, d') ∧ d'.driver = d.driver ∧
      (ReadClasses d (.quiet 0 2) r d' ↔ ¬ CopyFails d (.quiet 0 2)) := by
  obtain ⟨d, hd, he, hpos⟩ := exists_one_command
  have hpos : d.fPos (ReadCall.quiet 0 2).file = 0 := hpos
  exact ⟨d, he, read_classes_iff hd (by simp [he]) (by omega) (by omega) (by decide)⟩

/-- A read of the one command whose copy fails. -/
theorem failed_copy_returns_zero :
    ¬ ∀ d, Reachable Device.step (.init 4096 (by decide) fun _ => 0) d →
      d.driver.entries ≠ [] → ∀ c, 0 ≤ d.fPos c.file → 0 < c.count →
      ∀ r d', d.step (.read c) = some (r, d') → ReadClasses d c r d' := by
  intro hall
  have h : (run Device.step (.init 4096 (by decide) fun _ => 0)
      [.write (.quiet 0 [97, 98, 10] (by decide))]).map
        (fun p => (p.2.driver.entries, p.2.fPos 0,
          (p.2.step (.read ⟨0, 1, ⟨false, true⟩⟩)).map fun q => q.1.ret))
      = some ([[97, 98, 10]], 0, some 0) := by decide
  obtain ⟨⟨rs, d⟩, hr, heq⟩ := Option.map_eq_some_iff.mp h
  simp only [Prod.mk.injEq] at heq
  obtain ⟨he, hpos, hstep⟩ := heq
  obtain ⟨⟨r, d'⟩, hs, hret⟩ := Option.map_eq_some_iff.mp hstep
  have hclasses := hall d ⟨_, rs, hr⟩ (by simp [he]) ⟨0, 1, ⟨false, true⟩⟩
    (by rw [hpos]) (by decide) r d' hs
  have hend := (hclasses.zero.mp hret).2
  rw [he, hpos] at hend
  exact absurd hend (by decide)

end

end Aesd.Driver
