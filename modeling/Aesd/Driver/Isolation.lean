import Aesd.Driver.WriteRuns
import Aesd.Driver.Locking

/-!
# Files do not disturb each other

What a file sees of the device is decided by the writes that succeeded,
whoever made them, and by its own other calls. So the reads, seeks and `ioctl`s
of some files can be taken out of a run, all of them, and writes that failed,
of any file and each by itself; what is left is a run with the same replies
(`run_isolated`).
-/

namespace Aesd.Driver

open Aesd.Lib

/-- What may stay when all but the calls of `files` go: these, and any write. -/
def Stays (files : Set Nat) : Op × Reply → Prop
  | (.write _, _) => True
  | (op, _) => op.file ∈ files

/-- What may go: the calls of the other files, and any write that failed. -/
def Goes (files : Set Nat) : Op × Reply → Prop
  | (.write _, r) => r.ret < 0
  | (op, _) => op.file ∉ files

/-- Two logs that are the same, where the write buffer of the second may still be
what the first one's was before a write that failed. -/
structure SameLog (a b : LogState) : Prop where
  log : b.log = a.log
  limit : b.limit = a.limit
  nothing : a.buffer = .nothing → b.buffer = .nothing
  freed : a.buffer ≠ .freed → b.buffer ≠ .freed

section
variable {a a' b : LogState} {buf : UserBuf} {env : WriteEnv} {ret : Int}

/-- **A write on both** has the same outcome. -/
theorem SameLog.write (h : SameLog a b) (hw : a.write buf env = some (ret, a')) :
    ∃ b', b.write buf env = some (ret, b') ∧ SameLog a' b' := by
  obtain ⟨hret, hlimit, hcases⟩ := LogState.write_cases hw
  have hout : writeOutcome b.limit b.log.pending.length buf env
      = writeOutcome a.limit a.log.pending.length buf env := by rw [h.log, h.limit]
  rw [hret]
  rcases hcases with ⟨ho, ha⟩ | ⟨ho, hb, ha⟩ | ⟨ho, hb, ha⟩ | ⟨ho, hb, ha⟩ | ⟨ho, hb, hlog, hbuf⟩
  all_goals
    rw [← hout] at ho
    rw [← hout, ho]
  · rw [ha]
    exact ⟨b, by simp [LogState.write, ho, WriteOutcome.ret], h⟩
  · rw [ha]
    exact ⟨b, by simp [LogState.write, ho, h.nothing hb, WriteOutcome.ret], h⟩
  · -- the first loses its block here, the second may have none
    rw [ha]
    cases hbuffer : b.buffer with
    | nothing =>
        exact ⟨b, by simp [LogState.write, ho, hbuffer, WriteOutcome.ret], h.log, h.limit,
          fun hn => by simp at hn, fun hn => absurd rfl hn⟩
    | held =>
        exact ⟨{ b with buffer := .freed },
          by simp [LogState.write, ho, hbuffer, WriteOutcome.ret], h.log, h.limit,
          fun hn => by simp at hn, fun hn => absurd rfl hn⟩
    | freed => exact absurd hbuffer (h.freed (by simp [hb]))
  · rw [ha]
    exact ⟨_, LogState.write_faulted ho (h.freed hb), h.log, h.limit, fun hn => by simp at hn,
      fun _ => by simp⟩
  · refine ⟨_, LogState.write_stored ho (h.freed hb), by rw [hlog, h.log],
      by rw [hlimit, h.limit], ?_, ?_⟩
    · rw [hbuf, h.log]
      exact id
    · rw [hbuf, h.log]
      exact id

/-- **A write that failed on the first** is not missed on the second. -/
theorem SameLog.failed (h : SameLog a b) (hw : a.write buf env = some (ret, a'))
    (hret : ret < 0) : SameLog a' b := by
  obtain ⟨hout, -, hcases⟩ := LogState.write_cases hw
  rcases hcases with ⟨-, ha⟩ | ⟨-, -, ha⟩ | ⟨-, -, ha⟩ | ⟨-, hb, ha⟩ | ⟨ho, -⟩
  · rwa [ha]
  · rwa [ha]
  · rw [ha]
    exact ⟨h.log, h.limit, fun hn => by simp at hn, fun hn => absurd rfl hn⟩
  · rw [ha]
    exact ⟨h.log, h.limit, fun hn => by simp at hn, fun _ => h.freed hb⟩
  · have hnonneg : 0 ≤ ret := by
      rw [hout]
      exact WriteOutcome.ret_nonneg_iff.mpr ho
    omega

end

/-- Two devices with the same log and the same positions of `files`. -/
structure SameFor (files : Set Nat) (a b : LogDevice) : Prop where
  state : SameLog a.state b.state
  fPos : ∀ file ∈ files, b.fPos file = a.fPos file

section
variable {files : Set Nat} {a a' b : LogDevice} {op : Op} {r : Reply}

theorem SameFor.moved (h : SameFor files a b) (file : Nat) (pos : Int) :
    SameFor files { a with fPos := Function.update a.fPos file pos }
      { b with fPos := Function.update b.fPos file pos } := by
  refine ⟨h.state, fun f hf => ?_⟩
  by_cases hfile : f = file
  · subst hfile
    simp only [Function.update_self]
  · simp only [Function.update_of_ne hfile]
    exact h.fPos f hf

/-- **A call that stays** is answered the same on both. -/
theorem SameFor.keep (h : SameFor files a b) (hs : a.step op = some (r, a'))
    (hstays : Stays files (op, r)) : ∃ b', b.step op = some (r, b') ∧ SameFor files a' b' := by
  have hlog := h.state.log
  cases op with
  | write c =>
      obtain ⟨hw, hdata, hfPos⟩ := LogDevice.step_write hs
      obtain ⟨st, hst, hsame⟩ := h.state.write hw
      refine ⟨⟨st, b.fPos⟩, ?_, hsame, fun file hfile => by rw [hfPos, h.fPos file hfile]⟩
      simp only [LogDevice.step, hst, Option.bind_eq_bind, Option.bind_some, Option.pure_def,
        ← hdata]
  | «open» f =>
      cases hs
      exact ⟨_, rfl, h.moved f 0⟩
  | read c =>
      have hfile : c.file ∈ files := hstays
      simp only [LogDevice.step, Option.bind_eq_bind, Option.bind_eq_some_iff] at hs
      obtain ⟨⟨ret, data, pos⟩, hread, hs⟩ := hs
      cases hs
      refine ⟨{ b with fPos := Function.update b.fPos c.file pos }, ?_, h.moved c.file pos⟩
      simp only [LogDevice.step, hlog, h.fPos _ hfile, hread, Option.bind_eq_bind,
        Option.bind_some, Option.pure_def]
  | llseek f off whence interrupted =>
      have hfile : f ∈ files := hstays
      simp only [LogDevice.step, Option.some.injEq, Prod.mk.injEq] at hs
      obtain ⟨rfl, rfl⟩ := hs
      refine ⟨{ b with fPos := Function.update b.fPos f _ }, ?_, h.moved f _⟩
      simp only [LogDevice.step, hlog, h.fPos _ hfile]
  | ioctl f cmd seekto env =>
      have hfile : f ∈ files := hstays
      simp only [LogDevice.step, Option.some.injEq, Prod.mk.injEq] at hs
      obtain ⟨rfl, rfl⟩ := hs
      refine ⟨{ b with fPos := Function.update b.fPos f _ }, ?_, h.moved f _⟩
      simp only [LogDevice.step, hlog, h.fPos _ hfile]

/-- **A call that goes** leaves what the files see. -/
theorem SameFor.drop (h : SameFor files a b) (hs : a.step op = some (r, a'))
    (hgoes : Goes files (op, r)) : SameFor files a' b := by
  -- another file's position moves
  have hmoved : ∀ {f : Nat} {pos : Int}, f ∉ files → a'.state = a.state →
      a'.fPos = Function.update a.fPos f pos → SameFor files a' b := by
    intro f pos hf hstate hfPos
    refine ⟨by rw [hstate]; exact h.state, fun file hfile => ?_⟩
    have hne : file ≠ f := by
      rintro rfl
      exact hf hfile
    rw [hfPos, Function.update_of_ne hne, h.fPos file hfile]
  cases op with
  | write c =>
      obtain ⟨hw, -, hfPos⟩ := LogDevice.step_write hs
      exact ⟨h.state.failed hw hgoes, fun file hfile => by rw [hfPos, h.fPos file hfile]⟩
  | «open» f =>
      cases hs
      exact hmoved hgoes rfl rfl
  | read c =>
      have hstate := LogDevice.step_state (fun _ hc => by cases hc) hs
      simp only [LogDevice.step, Option.bind_eq_bind, Option.bind_eq_some_iff] at hs
      obtain ⟨⟨ret, data, pos⟩, -, hs⟩ := hs
      cases hs
      exact hmoved hgoes hstate rfl
  | llseek f off whence interrupted =>
      cases hs
      exact hmoved hgoes rfl rfl
  | ioctl f cmd seekto env =>
      cases hs
      exact hmoved hgoes rfl rfl

end

/-- **Files see the successful writes and their own calls.** Take out of any run
every call of the files outside `files` that is not a write, and any of the
writes that failed, whosever they are and whatever they failed with. What is
left is a run too: each call in it gets the same reply, `files` end at the same
positions, and the device with the same commands and as many pending bytes. -/
theorem run_isolated (limit : Nat) (hl : limit ≤ 2 ^ 56) (fPos : Nat → Int)
    {ops : List Op} {rs : List Reply} {d : Device}
    (h : run Device.step (.init limit hl fPos) ops = some (rs, d)) (files : Set Nat)
    {left : List (Op × Reply)} (hleft : Purged (Stays files) (Goes files) (ops.zip rs) left) :
    ∃ d', run Device.step (.init limit hl fPos) (left.map Prod.fst)
        = some (left.map Prod.snd, d') ∧
      (∀ file ∈ files, d'.fPos file = d.fPos file) ∧
      d'.driver.entries = d.driver.entries ∧
      d'.driver.aesdDevice.writeBufferSize = d.driver.aesdDevice.writeBufferSize := by
  obtain ⟨a, ha, ht, -⟩ := run_tracks h
  obtain ⟨b, hb, hsame⟩ : ∃ b, run LogDevice.step (.init limit fPos) (left.map Prod.fst)
      = some (left.map Prod.snd, b) ∧ SameFor files a b :=
    run_purged (R := SameFor files) (fun _ _ _ _ _ hab hs => hab.keep hs)
      (fun _ _ _ _ _ hab hs => hab.drop hs)
      ⟨⟨rfl, rfl, id, id⟩, fun _ _ => rfl⟩ ha hleft
  have hlock := device_lockstep limit hl fPos (left.map Prod.fst)
  rw [hb] at hlock
  obtain ⟨d', hd', ht'⟩ := hlock.of_some_right
  refine ⟨d', hd', fun file hfile => ?_, ?_, ?_⟩
  · rw [ht'.fPos, hsame.fPos file hfile, ht.fPos]
  · rw [ht'.state.entries, hsame.state.log, ht.state.entries]
  · rw [ht'.state.size, hsame.state.log, ht.state.size]

/-- What the first file sees, with a failed write and the other file's seek and
read taken out, and another failed write left in. -/
theorem run_isolated_two_files :
    let failed : WriteCall := ⟨1, ⟨[99], by decide⟩, ⟨true, ⟨false, true, fun _ => 0⟩, none⟩⟩
    let ops := [.write (.quiet 1 [97, 98, newline] (by decide)), .write failed,
      .llseek 1 1 0 false, .write failed, .read ⟨1, 5, .quiet⟩, .read ⟨0, 5, .quiet⟩]
    ∃ rs d d', run Device.step (.init 4096 (by decide) fun _ => 0) ops = some (rs, d) ∧
      run Device.step (.init 4096 (by decide) fun _ => 0)
        [.write (.quiet 1 [97, 98, newline] (by decide)), .write failed, .read ⟨0, 5, .quiet⟩]
        = some ([⟨3, []⟩, ⟨-512, []⟩, ⟨3, [97, 98, newline]⟩], d') ∧
      d'.fPos 0 = d.fPos 0 := by
  intro failed ops
  have h : (run Device.step (.init 4096 (by decide) fun _ => 0) ops).map Prod.fst
      = some [⟨3, []⟩, ⟨-512, []⟩, ⟨1, []⟩, ⟨-512, []⟩, ⟨2, [98, newline]⟩,
        ⟨3, [97, 98, newline]⟩] := by
    decide
  obtain ⟨⟨rs, d⟩, hr, rfl⟩ := Option.map_eq_some_iff.mp h
  have hfailed : (-512 : Int) < 0 := by decide
  have hother : (1 : Nat) ∉ ({0} : Set Nat) := by simp
  obtain ⟨d', hd', hpos, -⟩ := run_isolated 4096 (by decide) (fun _ => 0) hr {0}
    (.keep trivial (.drop hfailed (.drop hother (.keep trivial (.drop hother
      (.keep rfl .nil))))))
  exact ⟨_, d, d', hr, hd', hpos 0 rfl⟩

end Aesd.Driver
