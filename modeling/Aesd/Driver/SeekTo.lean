import Aesd.Driver.WriteRuns

/-!
# Seeking to a command

`AESDCHAR_IOCSEEKTO` on a device, as far as it is about positions: which
`(write_cmd, write_cmd_offset)` the driver accepts (`ioctl_accepts_iff`),
where an accepted one leaves the file (`ioctl_absolute_iff`), and that on a
file at position 0 its walk over the ring and the walk of the search undo
each other (`ioctl_inverts_find`).
-/

namespace Aesd.Driver

open Aesd.Lib

/-- The position of byte `offset` of the `i`-th command. -/
def bytePos (stored : List (List UInt8)) (i offset : Nat) : Nat :=
  (stored.take i).flatten.length + offset

/-- There is such a byte: the command is stored, and the offset inside it. -/
def NamesByte (stored : List (List UInt8)) (seekto : AesdSeekto) : Prop :=
  ∃ h : seekto.writeCmd.toNat < stored.length,
    seekto.writeCmdOffset.toNat < (stored[seekto.writeCmd.toNat]).length

section
variable {stored : List (List UInt8)} {seekto seekto' : AesdSeekto}

theorem bytePos_eq_sum (stored : List (List UInt8)) (i offset : Nat) :
    bytePos stored i offset = ((stored.map List.length).take i).sum + offset := by
  rw [bytePos, List.length_flatten, List.map_take]

/-- **A position is a byte's exactly when the search finds that byte there.** -/
theorem locate_eq_iff_bytePos {p i k : Nat} :
    locate (stored.map List.length) p = some (i, k) ↔
      ∃ h : i < stored.length, k < (stored[i]).length ∧ bytePos stored i k = p := by
  rw [locate_eq_some_iff, bytePos_eq_sum]
  simp only [List.length_map, List.getElem_map]

theorem NamesByte.locate (h : NamesByte stored seekto) :
    Lib.locate (stored.map List.length)
        (bytePos stored seekto.writeCmd.toNat seekto.writeCmdOffset.toNat)
      = some (seekto.writeCmd.toNat, seekto.writeCmdOffset.toNat) := by
  obtain ⟨hi, hk⟩ := h
  exact locate_eq_iff_bytePos.mpr ⟨hi, hk, rfl⟩

theorem bytePos_lt {i k : Nat} (hk : k < (stored[i]?.getD []).length) :
    bytePos stored i k < stored.flatten.length := by
  rcases Nat.lt_or_ge i stored.length with hi | hi
  · rw [List.getElem?_eq_getElem hi, Option.getD_some] at hk
    have hl := locate_eq_iff_bytePos.mpr ⟨hi, hk, rfl⟩
    by_contra hge
    rw [locate_eq_none_iff.mpr (by rw [← List.length_flatten]; omega)] at hl
    cases hl
  · rw [List.getElem?_eq_none hi] at hk
    simp at hk

theorem NamesByte.bytePos_lt (h : NamesByte stored seekto) :
    bytePos stored seekto.writeCmd.toNat seekto.writeCmdOffset.toNat
      < stored.flatten.length := by
  obtain ⟨hi, hk⟩ := h
  apply Driver.bytePos_lt
  rwa [List.getElem?_eq_getElem hi, Option.getD_some]

/-- **Positions are in the order of the bytes.** -/
theorem NamesByte.bytePos_lt_bytePos (h : NamesByte stored seekto)
    (hlt : seekto.writeCmd < seekto'.writeCmd ∨
      seekto.writeCmd = seekto'.writeCmd ∧
        seekto.writeCmdOffset < seekto'.writeCmdOffset) :
    bytePos stored seekto.writeCmd.toNat seekto.writeCmdOffset.toNat
      < bytePos stored seekto'.writeCmd.toNat seekto'.writeCmdOffset.toNat := by
  obtain ⟨hi, hk, -⟩ := locate_spec h.locate
  rw [bytePos_eq_sum, bytePos_eq_sum]
  refine sum_take_add_lt hi hk ?_
  rcases hlt with hlt | ⟨heq, hlt⟩
  · exact .inl (UInt32.lt_iff_toNat_lt.mp hlt)
  · exact .inr ⟨congrArg UInt32.toNat heq, UInt32.lt_iff_toNat_lt.mp hlt⟩

theorem exists_namesByte (hten : stored.length ≤ 10)
    (hlen : stored.flatten.length < 2 ^ 31) {q : Nat} (hq : q < stored.flatten.length) :
    ∃ seekto, NamesByte stored seekto ∧
      bytePos stored seekto.writeCmd.toNat seekto.writeCmdOffset.toNat = q := by
  rw [List.length_flatten] at hq
  obtain ⟨i, k, hl⟩ := locate_isSome hq
  obtain ⟨hi, hk, hpos⟩ := locate_eq_iff_bytePos.mp hl
  rw [← List.length_flatten] at hq
  have hle : k ≤ q := by
    rw [← hpos, bytePos]
    omega
  have hi32 : (UInt32.ofNat i).toNat = i := UInt32.toNat_ofNat_of_lt' (by
    show i < 2 ^ 32
    omega)
  have hk32 : (UInt32.ofNat k).toNat = k := UInt32.toNat_ofNat_of_lt' (by
    show k < 2 ^ 32
    omega)
  refine ⟨⟨UInt32.ofNat i, UInt32.ofNat k⟩, ?_, ?_⟩
  · show ∃ h : (UInt32.ofNat i).toNat < stored.length,
      (UInt32.ofNat k).toNat < (stored[(UInt32.ofNat i).toNat]).length
    simp only [hi32, hk32]
    exact ⟨hi, hk⟩
  · rw [hi32, hk32]
    exact hpos

theorem NamesByte.eq_of_bytePos (h : NamesByte stored seekto)
    (h' : NamesByte stored seekto')
    (heq : bytePos stored seekto.writeCmd.toNat seekto.writeCmdOffset.toNat
      = bytePos stored seekto'.writeCmd.toNat seekto'.writeCmdOffset.toNat) :
    seekto = seekto' := by
  have hl := h.locate
  rw [heq, h'.locate] at hl
  simp only [Option.some.injEq, Prod.mk.injEq] at hl
  obtain ⟨hi, hk⟩ := hl
  have hcmd : seekto.writeCmd = seekto'.writeCmd := UInt32.toNat_inj.mp hi.symm
  have hoff : seekto.writeCmdOffset = seekto'.writeCmdOffset :=
    UInt32.toNat_inj.mp hk.symm
  calc seekto = ⟨seekto.writeCmd, seekto.writeCmdOffset⟩ := rfl
    _ = ⟨seekto'.writeCmd, seekto'.writeCmdOffset⟩ := by rw [hcmd, hoff]
    _ = seekto' := rfl

end

/-! ## The call -/

theorem reachable_ring {limit : Nat} {hl : limit ≤ 2 ^ 56} {fPos : Nat → Int} {d : Device}
    (hd : Reachable Device.step (.init limit hl fPos) d) :
    ∃ (log : CommandLog) (held : Ptr) (es : List AesdBufferEntry),
      RingHolds d.driver.heap d.driver.aesdDevice.circularBuffer held es log.commands ∧
        d.driver.entries = log.stored := by
  obtain ⟨a, ha⟩ := reachable_tracks hd
  obtain ⟨held, es, hr⟩ := ha.state.ring
  exact ⟨a.state.log, held, es, hr, ha.state.entries⟩

theorem toU32_length {c : List UInt8} (h : c.length < 2 ^ 31) :
    toU32 (toI32 (c.length : Int)) = c.length := by
  rw [toI32_natCast h, toU32_natCast (by omega)]

theorem length_getD_le (stored : List (List UInt8)) (i : Nat) :
    (stored[i]?.getD []).length ≤ stored.flatten.length := by
  cases hc : stored[i]? with
  | none => simp
  | some c =>
      rw [Option.getD_some]
      exact (List.sublist_flatten_of_mem (List.mem_of_getElem? hc)).length_le

/-- The position a call addresses: the bytes of the commands older than the
one in its slot, and the offset. -/
def seekPos (stored : List (List UInt8)) (seekto : AesdSeekto) : Nat :=
  bytePos stored (seekto.writeCmd.toNat % 10) seekto.writeCmdOffset.toNat

/-- The call passes both tests of `aesd_ioctl`. -/
def Accepts (stored : List (List UInt8)) (seekto : AesdSeekto) : Prop :=
  seekto.writeCmd.toNat ≤ 10 ∧
    seekto.writeCmdOffset.toNat < (stored[seekto.writeCmd.toNat % 10]?.getD []).length

instance (stored : List (List UInt8)) (seekto : AesdSeekto) :
    Decidable (Accepts stored seekto) :=
  inferInstanceAs (Decidable (_ ∧ _))

theorem Accepts.seekPos_lt {stored : List (List UInt8)} {seekto : AesdSeekto}
    (h : Accepts stored seekto) : seekPos stored seekto < stored.flatten.length :=
  bytePos_lt h.2

/-- **`aesd_ioctl` on contents that fit an `int`**: up to command number 10,
the offset is compared with the size of the command in that slot, and the
byte's position is added to the file's. -/
theorem ioctlResult_seekto {stored : List (List UInt8)}
    (hlen : stored.flatten.length < 2 ^ 31) (fPos : Int) (seekto : AesdSeekto) :
    ioctlResult stored fPos aesdcharIocseekto seekto .quiet =
      if Accepts stored seekto then (0, toI64 (fPos + seekPos stored seekto))
      else (-eInval, fPos) := by
  have hsize := length_getD_le stored (seekto.writeCmd.toNat % 10)
  unfold ioctlResult
  simp only [CallEnv.quiet, Bool.false_eq_true, if_false, ne_eq, not_true_eq_false,
    toU32_length (Nat.lt_of_le_of_lt hsize hlen)]
  by_cases hmax : seekto.writeCmd.toNat ≤ 10
  · rw [if_neg (by simpa using hmax)]
    by_cases hoff : seekto.writeCmdOffset.toNat
        < (stored[seekto.writeCmd.toNat % 10]?.getD []).length
    · rw [if_pos hoff, if_pos ⟨hmax, hoff⟩]
      -- what comes before the command, and the offset inside it, fit an `int`
      have hpos := Nat.lt_trans (bytePos_lt hoff) hlen
      have hcast : ((stored.take (seekto.writeCmd.toNat % 10)).flatten.length : Int)
            + seekto.writeCmdOffset.toNat = (seekPos stored seekto : Int) := by
        rw [seekPos, bytePos]
        push_cast
        rfl
      have hfit : seekPos stored seekto < 2 ^ 31 := hpos
      rw [bytePos] at hpos
      rw [sizesSum_eq (by omega), hcast, toU32_natCast (by omega), toI32_natCast hfit]
    · rw [if_neg hoff, if_neg fun h => hoff h.2]
  · rw [if_pos (by simpa using hmax), if_neg fun h => hmax h.1]

/-- On a byte that is there, below command 10 the slot is the command's own. -/
theorem ioctlResult_of_namesByte {stored : List (List UInt8)} {seekto : AesdSeekto}
    (hlen : stored.flatten.length < 2 ^ 31) (hten : stored.length ≤ 10) (fPos : Int)
    (h : NamesByte stored seekto) :
    ioctlResult stored fPos aesdcharIocseekto seekto .quiet
      = (0, toI64 (fPos +
          bytePos stored seekto.writeCmd.toNat seekto.writeCmdOffset.toNat)) := by
  obtain ⟨hi, hk⟩ := h
  have hmod : seekto.writeCmd.toNat % 10 = seekto.writeCmd.toNat :=
    Nat.mod_eq_of_lt (by omega)
  have hacc : Accepts stored seekto := by
    refine ⟨by omega, ?_⟩
    rwa [hmod, List.getElem?_eq_getElem hi, Option.getD_some]
  rw [ioctlResult_seekto hlen, if_pos hacc, seekPos, hmod]

/-! ## What is accepted -/

/-- The call accepts exactly the bytes there are, and leaves the file alone
when it accepts none. -/
def AcceptsExactly (s : DriverState) (fPos : Int) (seekto : AesdSeekto) : Prop :=
  ∃ ret pos, aesdIoctl s fPos aesdcharIocseekto seekto .quiet = some (ret, pos) ∧
    (ret = 0 ↔ NamesByte s.entries seekto) ∧
    (¬ NamesByte s.entries seekto → ret = -eInval ∧ pos = fPos)

/-- **`AESDCHAR_IOCSEEKTO` accepts exactly the existing bytes, except** for
command number 10, which passes the bound test and falls on the slot of
command 0. -/
theorem ioctl_accepts_iff {limit : Nat} {hl : limit ≤ 2 ^ 56} {fPos : Nat → Int}
    {d : Device} (hd : Reachable Device.step (.init limit hl fPos) d)
    (hlen : d.driver.entries.flatten.length < 2 ^ 31) (pos : Int) (seekto : AesdSeekto) :
    AcceptsExactly d.driver pos seekto ↔
      ¬ (seekto.writeCmd = 10 ∧ NamesByte d.driver.entries ⟨0, seekto.writeCmdOffset⟩) := by
  obtain ⟨log, held, es, hr, hentries⟩ := reachable_ring hd
  have hten : log.stored.length ≤ 10 := by
    rw [log.stored_length]
    omega
  have hcall := hr.aesdIoctl pos aesdcharIocseekto seekto .quiet
  have h10' : (10 : UInt32).toNat = 10 := rfl
  unfold AcceptsExactly
  rw [hentries] at hlen ⊢
  rw [ioctlResult_seekto hlen] at hcall
  constructor
  · -- command 10 is accepted, and no command has that number
    rintro ⟨ret, pos', hresult, haccepts, -⟩ ⟨h10, h0, hoff⟩
    have h0 : 0 < log.stored.length := h0
    have hoff : seekto.writeCmdOffset.toNat < (log.stored[0]).length := hoff
    have hacc : Accepts log.stored seekto := by
      unfold Accepts
      rw [h10, h10', Nat.mod_self, List.getElem?_eq_getElem h0, Option.getD_some]
      exact ⟨Nat.le_refl 10, hoff⟩
    rw [if_pos hacc] at hcall
    rw [hcall] at hresult
    cases hresult
    obtain ⟨hi, -⟩ := haccepts.mp rfl
    rw [h10, h10'] at hi
    omega
  · intro hnot
    by_cases hname : NamesByte log.stored seekto
    · have hyes := hr.aesdIoctl pos aesdcharIocseekto seekto .quiet
      rw [ioctlResult_of_namesByte hlen hten pos hname] at hyes
      exact ⟨_, _, hyes, by simp [hname], fun h => absurd hname h⟩
    · have hreject : ¬ Accepts log.stored seekto := by
        rintro ⟨hle, hoff⟩
        rcases Nat.lt_or_ge seekto.writeCmd.toNat log.stored.length with hi | hi
        · rw [Nat.mod_eq_of_lt (by omega), List.getElem?_eq_getElem hi,
            Option.getD_some] at hoff
          exact hname ⟨hi, hoff⟩
        rcases Nat.lt_or_ge (seekto.writeCmd.toNat % 10) log.stored.length with hm | hm
        · -- the number is not that of a command, but its slot is taken: it is 10
          have h10 : seekto.writeCmd.toNat = 10 := by omega
          refine hnot ⟨UInt32.toNat_inj.mp (by rw [h10, h10']), ?_⟩
          rw [h10, Nat.mod_self] at hm hoff
          rw [List.getElem?_eq_getElem hm, Option.getD_some] at hoff
          exact ⟨hm, hoff⟩
        · rw [List.getElem?_eq_none hm] at hoff
          simp at hoff
      rw [if_neg hreject] at hcall
      exact ⟨_, _, hcall, by simp [hname, eInval], fun _ => ⟨rfl, rfl⟩⟩

theorem exists_one_command : ∃ d, Reachable Device.step
      (.init 4096 (by decide) fun _ => 0) d ∧
    d.driver.entries = [[97, 98, 10]] ∧ d.fPos 0 = 0 := by
  have h : (run Device.step (.init 4096 (by decide) fun _ => 0)
      [.write (.quiet 0 [97, 98, 10] (by decide))]).map
        (fun p => (p.2.driver.entries, p.2.fPos 0)) = some ([[97, 98, 10]], 0) := by decide
  obtain ⟨⟨rs, d⟩, hr, heq⟩ := Option.map_eq_some_iff.mp h
  simp only [Prod.mk.injEq] at heq
  exact ⟨d, ⟨_, rs, hr⟩, heq.1, heq.2⟩

theorem ioctl_accepts_iff_second_byte : ∃ d : Device, d.driver.entries = [[97, 98, 10]] ∧
    (AcceptsExactly d.driver 0 ⟨0, 1⟩ ↔
      ¬ ((0 : UInt32) = 10 ∧ NamesByte d.driver.entries ⟨0, 1⟩)) := by
  obtain ⟨d, hd, he, -⟩ := exists_one_command
  have hlen : d.driver.entries.flatten.length < 2 ^ 31 := by
    rw [he]
    decide
  exact ⟨d, he, ioctl_accepts_iff hd hlen 0 ⟨0, 1⟩⟩

/-- Byte 0 of command 10, on a device with one command. -/
theorem command_ten_accepted :
    ¬ ∀ d, Reachable Device.step (.init 4096 (by decide) fun _ => 0) d →
      d.driver.entries.flatten.length < 2 ^ 31 →
      ∀ pos seekto, AcceptsExactly d.driver pos seekto := by
  intro hall
  have h : (run Device.step (.init 4096 (by decide) fun _ => 0)
      [.write (.quiet 0 [97, 98, 10] (by decide))]).map
        (fun p => (p.2.driver.entries,
          aesdIoctl p.2.driver 0 aesdcharIocseekto ⟨10, 0⟩ .quiet))
      = some ([[97, 98, 10]], some (0, 0)) := by decide
  obtain ⟨⟨rs, d⟩, hr, heq⟩ := Option.map_eq_some_iff.mp h
  simp only [Prod.mk.injEq] at heq
  obtain ⟨he, hcall⟩ := heq
  obtain ⟨ret, pos, hresult, haccepts, -⟩ :=
    hall d ⟨_, rs, hr⟩ (by rw [he]; decide) 0 ⟨10, 0⟩
  rw [hcall] at hresult
  cases hresult
  obtain ⟨hi, -⟩ := haccepts.mp rfl
  rw [he] at hi
  exact absurd hi (by decide)

/-! ## Where the file is left -/

/-- The seek is absolute: it goes to the byte it addresses, and once more
changes nothing. -/
structure AbsoluteSeek (s : DriverState) (fPos : Int) (seekto : AesdSeekto) : Prop where
  position : aesdIoctl s fPos aesdcharIocseekto seekto .quiet
    = some (0, (seekPos s.entries seekto : Int))
  again : ∃ pos, aesdIoctl s fPos aesdcharIocseekto seekto .quiet = some (0, pos) ∧
    aesdIoctl s pos aesdcharIocseekto seekto .quiet = some (0, pos)

/-- A wrapping addition gives the second summand only for the first one 0. -/
theorem toI64_add_eq_right {x p : Int} (h0 : 0 ≤ x) (hx : x < 2 ^ 63) (hp : 0 ≤ p)
    (hp' : p < 2 ^ 31) : toI64 (x + p) = p ↔ x = 0 := by
  simp only [toI64, Int.bmod]
  constructor
  · intro h
    split at h <;> omega
  · rintro rfl
    split <;> omega

/-- A wrapping addition changes nothing only if nothing is added. -/
theorem toI64_add_eq_left {x p : Int} (hp : 0 ≤ p) (hp' : p < 2 ^ 31) :
    toI64 (toI64 x + p) = toI64 x ↔ p = 0 := by
  simp only [toI64, Int.bmod]
  constructor
  · intro h
    split at h <;> split at h <;> omega
  · rintro rfl
    split <;> split <;> omega

/-- **An accepted seek is absolute exactly** on a file at position 0 and,
done twice, for the first byte of the contents: the position is added to the
file's own. -/
theorem ioctl_absolute_iff {limit : Nat} {hl : limit ≤ 2 ^ 56} {fPos : Nat → Int}
    {d : Device} (hd : Reachable Device.step (.init limit hl fPos) d)
    (hlen : d.driver.entries.flatten.length < 2 ^ 31) {pos : Int} (h0 : 0 ≤ pos)
    (hmax : pos < 2 ^ 63) {seekto : AesdSeekto} {pos' : Int}
    (hacc : aesdIoctl d.driver pos aesdcharIocseekto seekto .quiet = some (0, pos')) :
    (AbsoluteSeek d.driver pos seekto ↔ pos = 0 ∧ seekPos d.driver.entries seekto = 0) ∧
    (pos' = (seekPos d.driver.entries seekto : Int) ↔ pos = 0) ∧
    (aesdIoctl d.driver pos' aesdcharIocseekto seekto .quiet = some (0, pos') ↔
      seekPos d.driver.entries seekto = 0) := by
  obtain ⟨log, held, es, hr, hentries⟩ := reachable_ring hd
  rw [hentries] at hlen ⊢
  have hcall := fun p => (hr.aesdIoctl p aesdcharIocseekto seekto .quiet).trans
    (congrArg some (ioctlResult_seekto hlen p seekto))
  -- an accepted call passed both tests, whatever the position
  have hpass : Accepts log.stored seekto := by
    by_contra hfail
    have hc := hcall pos
    rw [if_neg hfail, hacc] at hc
    cases hc
  have hadd : ∀ p, aesdIoctl d.driver p aesdcharIocseekto seekto .quiet
      = some (0, toI64 (p + seekPos log.stored seekto)) := by
    intro p
    rw [hcall p, if_pos hpass]
  have hpos' : pos' = toI64 (pos + seekPos log.stored seekto) := by
    rw [hadd pos] at hacc
    cases hacc
    rfl
  have hlt : seekPos log.stored seekto < 2 ^ 31 :=
    Nat.lt_trans hpass.seekPos_lt hlen
  have hposition : pos' = (seekPos log.stored seekto : Int) ↔ pos = 0 := by
    rw [hpos']
    exact toI64_add_eq_right h0 hmax (by omega) (by omega)
  have hagain : aesdIoctl d.driver pos' aesdcharIocseekto seekto .quiet = some (0, pos') ↔
      seekPos log.stored seekto = 0 := by
    rw [hadd pos', hpos']
    simp only [Option.some.injEq, Prod.mk.injEq, true_and]
    rw [toI64_add_eq_left (by omega) (by omega)]
    omega
  refine ⟨?_, hposition, hagain⟩
  rw [← hposition, ← hagain]
  constructor
  · rintro ⟨hp, q, hq, hq'⟩
    rw [hacc] at hp hq
    cases hq
    rw [hentries] at hp
    refine ⟨?_, hq'⟩
    simpa using hp
  · rintro ⟨hp, hq⟩
    refine ⟨?_, pos', hacc, hq⟩
    rw [hacc, hentries, hp]

theorem ioctl_absolute_iff_second_byte : ∃ d : Device, d.driver.entries = [[97, 98, 10]] ∧
    (AbsoluteSeek d.driver 0 ⟨0, 1⟩ ↔
      (0 : Int) = 0 ∧ seekPos d.driver.entries ⟨0, 1⟩ = 0) := by
  have h : (run Device.step (.init 4096 (by decide) fun _ => 0)
      [.write (.quiet 0 [97, 98, 10] (by decide))]).map
        (fun p => (p.2.driver.entries,
          aesdIoctl p.2.driver 0 aesdcharIocseekto ⟨0, 1⟩ .quiet))
      = some ([[97, 98, 10]], some (0, 1)) := by decide
  obtain ⟨⟨rs, d⟩, hr, heq⟩ := Option.map_eq_some_iff.mp h
  simp only [Prod.mk.injEq] at heq
  obtain ⟨he, hcall⟩ := heq
  exact ⟨d, he, (ioctl_absolute_iff ⟨_, rs, hr⟩ (by rw [he]; decide) (by decide)
    (by decide) hcall).1⟩

/-- The second byte of the one command, twice. -/
theorem second_seek_moves_on :
    ¬ ∀ d, Reachable Device.step (.init 4096 (by decide) fun _ => 0) d →
      d.driver.entries.flatten.length < 2 ^ 31 →
      ∀ pos seekto pos', 0 ≤ pos → pos < 2 ^ 63 →
        aesdIoctl d.driver pos aesdcharIocseekto seekto .quiet = some (0, pos') →
        AbsoluteSeek d.driver pos seekto := by
  intro hall
  have h : (run Device.step (.init 4096 (by decide) fun _ => 0)
      [.write (.quiet 0 [97, 98, 10] (by decide))]).map
        (fun p => (p.2.driver.entries,
          aesdIoctl p.2.driver 1 aesdcharIocseekto ⟨0, 1⟩ .quiet))
      = some ([[97, 98, 10]], some (0, 2)) := by decide
  obtain ⟨⟨rs, d⟩, hr, heq⟩ := Option.map_eq_some_iff.mp h
  simp only [Prod.mk.injEq] at heq
  obtain ⟨he, hcall⟩ := heq
  have habs := (hall d ⟨_, rs, hr⟩ (by rw [he]; decide) 1 ⟨0, 1⟩ 2 (by decide) (by decide)
    hcall).position
  rw [hcall, he] at habs
  revert habs
  decide

/-! ## The two walks -/

/-- **The walk of the call and the walk of the search undo each other.** On a
file at position 0, the position of a byte is inside the contents, the search
maps it back to the command's slot and the offset, positions grow with
`(write_cmd, write_cmd_offset)` in lexicographic order, and every position
inside the contents is that of one byte. -/
theorem ioctl_inverts_find {limit : Nat} {hl : limit ≤ 2 ^ 56} {fPos : Nat → Int}
    {d : Device} (hd : Reachable Device.step (.init limit hl fPos) d)
    (hlen : d.driver.entries.flatten.length < 2 ^ 31) :
    let stored := d.driver.entries
    let ring := d.driver.aesdDevice.circularBuffer
    (∀ seekto, NamesByte stored seekto → ∃ p : Nat, p < stored.flatten.length ∧
      aesdIoctl d.driver 0 aesdcharIocseekto seekto .quiet = some (0, (p : Int)) ∧
      ∀ rtn, aesdCircularBufferFindEntryOffsetForFpos ring p rtn
        = some (some ((ring.outOffs + seekto.writeCmd.toNat) % 10),
            seekto.writeCmdOffset.toNat)) ∧
    (∀ seekto seekto' p p', NamesByte stored seekto → NamesByte stored seekto' →
      aesdIoctl d.driver 0 aesdcharIocseekto seekto .quiet = some (0, p) →
      aesdIoctl d.driver 0 aesdcharIocseekto seekto' .quiet = some (0, p') →
      (seekto.writeCmd < seekto'.writeCmd ∨ seekto.writeCmd = seekto'.writeCmd ∧
        seekto.writeCmdOffset < seekto'.writeCmdOffset) → p < p') ∧
    ∀ q < stored.flatten.length, ∃! seekto, NamesByte stored seekto ∧
      aesdIoctl d.driver 0 aesdcharIocseekto seekto .quiet = some (0, (q : Int)) := by
  intro stored ring
  obtain ⟨log, held, es, hr, hentries⟩ := reachable_ring hd
  have hstored : stored = log.stored := hentries
  rw [show d.driver.entries = log.stored from hentries] at hlen
  rw [hstored]
  have hten : log.stored.length ≤ 10 := by
    rw [log.stored_length]
    omega
  have hcall : ∀ seekto, NamesByte log.stored seekto →
      aesdIoctl d.driver 0 aesdcharIocseekto seekto .quiet = some (0,
        (bytePos log.stored seekto.writeCmd.toNat seekto.writeCmdOffset.toNat : Int)) := by
    intro seekto h
    have hlt := h.bytePos_lt
    rw [hr.aesdIoctl, ioctlResult_of_namesByte hlen hten 0 h, Int.zero_add,
      toI64_natCast (by omega)]
  refine ⟨?_, ?_, ?_⟩
  · intro seekto h
    have hne : log.stored ≠ [] := by
      obtain ⟨hi, -⟩ := h
      exact List.ne_nil_of_length_pos (by omega)
    refine ⟨_, h.bytePos_lt, hcall seekto h, fun rtn => ?_⟩
    rw [hr.find hne, h.locate]
    rfl
  · intro seekto seekto' p p' h h' hp hp' hlt
    rw [hcall seekto h] at hp
    rw [hcall seekto' h'] at hp'
    cases hp
    cases hp'
    exact_mod_cast h.bytePos_lt_bytePos hlt
  · intro q hq
    obtain ⟨seekto, h, hpos⟩ := exists_namesByte hten hlen hq
    refine ⟨seekto, ⟨h, by rw [hcall seekto h, hpos]⟩, ?_⟩
    rintro seekto' ⟨h', hcall'⟩
    rw [hcall seekto' h'] at hcall'
    simp only [Option.some.injEq, Prod.mk.injEq, true_and] at hcall'
    exact h'.eq_of_bytePos h (by rw [hpos]; exact_mod_cast hcall')

theorem ioctl_inverts_find_third_byte : ∃ d : Device,
    d.driver.entries = [[97, 98, 10]] ∧
    ∃! seekto, NamesByte d.driver.entries seekto ∧
      aesdIoctl d.driver 0 aesdcharIocseekto seekto .quiet = some (0, 2) := by
  obtain ⟨d, hd, he, -⟩ := exists_one_command
  have hlen : d.driver.entries.flatten.length < 2 ^ 31 := by
    rw [he]
    decide
  refine ⟨d, he, (ioctl_inverts_find hd hlen).2.2 2 ?_⟩
  rw [he]
  decide

end Aesd.Driver
