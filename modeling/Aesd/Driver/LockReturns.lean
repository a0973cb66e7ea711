import Aesd.Driver.Linearize

/-!
# The lock comes back

A call that has the lock gives it back after twelve statements, whatever the
others do, unless it crashes (`lock_released`). So the calls do not lock each
other out: each can be brought to its return (`calls_return`).
-/

namespace Aesd.Driver

open Aesd.Lib

/-! ## The holder -/

/-- Whether a step is of the call of `file`. -/
def SharedAct.isGo (file : Nat) : SharedAct → Bool
  | .call _ => false
  | .go f => f = file

/-- Where a call is once it took effect. -/
def CallPc.after : CallPc → Bool
  | .setPos _ | .returns _ => true
  | _ => false

/-- What a step does while `file` has the lock: its call gives it back, or goes on
under it, or the step is another file's and leaves both alone. -/
inductive HolderStep (s : Shared) (file : Nat) (op : Op) (pc : CallPc) (s' : Shared) :
    SharedAct → Prop where
  | released {pc' : CallPc} (hlast : ∀ n, (op.alone n pc s.driver (s.fPos file)).isSome = true)
      (hafter : pc'.after = true)
      (htask : s'.task = Function.update s.task file (.call op pc')) (hlock : s'.lock = none) :
      HolderStep s file op pc s' (.go file)
  | statement {pc' : CallPc}
      (hs : op.statement s.driver (s.fPos file) pc = some (pc', s'.driver, s'.fPos file))
      (htask : s'.task = Function.update s.task file (.call op pc'))
      (hlock : s'.lock = some file) : HolderStep s file op pc s' (.go file)
  | other {act : SharedAct} (hgo : act.isGo file = false) (hlock : s'.lock = some file)
      (htask : s'.task file = .call op pc) (hdriver : s'.driver = s.driver)
      (hpos : s'.fPos file = s.fPos file) : HolderStep s file op pc s' act

/-- Somewhere in these steps the lock is free. -/
def LockFreed (s : Shared) (acts : List SharedAct) : Prop :=
  ∃ before outs s', before <+: acts ∧ run Shared.step s before = some (outs, s') ∧
    s'.lock = none

section
variable {op : Op} {pc : CallPc} {s s' : Shared} {d : Device} {file : Nat} {act : SharedAct}
  {out : Option CallEvent}

theorem LockFreed.cons {acts : List SharedAct} (hs : s.step act = some (out, s'))
    (h : LockFreed s' acts) : LockFreed s (act :: acts) := by
  obtain ⟨before, outs, s₁, hp, hrun, hfree⟩ := h
  exact ⟨act :: before, out :: outs, s₁, List.cons_prefix_cons.mpr ⟨rfl, hp⟩,
    run_cons.mpr ⟨out, s', outs, hs, hrun, rfl⟩, hfree⟩

theorem Represents.lock_inside (h : Represents s d) {f : Nat} (hlock : s.lock = some file)
    (htask : s.task f = .call op pc) (hin : pc.inside = true) : f = file := by
  have hf : s.lock = some f := by
    rw [← h.lock, htask]
    exact hin
  rw [hlock] at hf
  exact (Option.some.inj hf).symm

theorem HolderStep.of_ne {f : Nat} {t : Task} {fPos : Int} (hne : file ≠ f)
    (hgo : act.isGo file = false) (hlock : s.lock = some file)
    (htask : s.task file = .call op pc) :
    HolderStep s file op pc ⟨s.driver, s.lock, Function.update s.fPos f fPos,
      Function.update s.task f t⟩ act := by
  refine .other hgo hlock ?_ rfl ?_
  · show Function.update s.task f t file = _
    rw [Function.update_of_ne hne, htask]
  · show Function.update s.fPos f fPos file = _
    rw [Function.update_of_ne hne]

/-- **A step while `file` has the lock.** -/
theorem Represents.holderStep (h : Represents s d) (hlock : s.lock = some file)
    (htask : s.task file = .call op pc) (hs : s.step act = some (out, s')) :
    HolderStep s file op pc s' act := by
  -- a file that is not inside is another one
  have hne : ∀ {f : Nat} {t : Task}, s.task f = t → t.inside = false → file ≠ f := by
    rintro f t rfl hout rfl
    rw [(h.lock file).mpr hlock] at hout
    cases hout
  cases Shared.step_cases hs with
  | called op' hidle =>
      have hmove : HolderStep s file op pc ⟨s.driver, s.lock,
          Function.update s.fPos op'.file (s.fPos op'.file),
          Function.update s.task op'.file (.call op' .start)⟩ (.call op') :=
        .of_ne (hne hidle rfl) rfl hlock htask
      rw [Function.update_eq_self] at hmove
      exact hmove
  | effect ht hresult =>
      have hf := hne ht rfl
      exact HolderStep.of_ne hf (decide_eq_false (Ne.symm hf)) hlock htask
  | takeLock ht hfree hopen hin' =>
      rw [hlock] at hfree
      cases hfree
  | @statement f op' pc' pc'' driver fPos ht hin' hstatement =>
      obtain rfl := h.lock_inside hlock ht hin'
      rw [htask] at ht
      cases ht
      have hpos : Function.update s.fPos f fPos f = fPos := Function.update_self ..
      have hs' : op.statement s.driver (s.fPos f) pc
          = some (pc'', driver, Function.update s.fPos f fPos f) := by
        rw [hpos]
        exact hstatement
      exact .statement hs' rfl hlock
  | @unlock f op' r ht =>
      obtain rfl := h.lock_inside hlock ht rfl
      rw [htask] at ht
      cases ht
      exact .released (fun n => by rw [Op.alone_unlock]; rfl) rfl rfl rfl
  | @unlockSize f op' fileSize r ht hr =>
      obtain rfl := h.lock_inside hlock ht rfl
      rw [htask] at ht
      cases ht
      exact .released (fun n => by cases n <;> rfl) rfl rfl rfl
  | setPos ht hr hdata =>
      have hf := hne ht rfl
      exact HolderStep.of_ne hf (decide_eq_false (Ne.symm hf)) hlock htask
  | @returned f op' r ht =>
      have hf := hne ht rfl
      have hmove : HolderStep s file op pc ⟨s.driver, s.lock,
          Function.update s.fPos f (s.fPos f), Function.update s.task f .idle⟩ (.go f) :=
        .of_ne hf (decide_eq_false (Ne.symm hf)) hlock htask
      rw [Function.update_eq_self] at hmove
      exact hmove

theorem TakesEffect.tracks (ht : ∃ a, DeviceTracks d a) {d' : Device}
    (h : TakesEffect d out d') : ∃ a, DeviceTracks d' a := by
  obtain ⟨a, ht⟩ := ht
  rcases out with _ | op | ⟨op, r⟩ | ⟨f, r⟩
  · exact ⟨a, h ▸ ht⟩
  · exact ⟨a, h ▸ ht⟩
  · have hstep := ht.step op
    rw [show d.step op = some (r, d') from h] at hstep
    obtain ⟨a', -, ht'⟩ := hstep.of_some_left
    exact ⟨a', ht'⟩
  · exact ⟨a, h ▸ ht⟩

theorem Shared.go_isSome (htask : s.task file = .call op pc) (hin : pc.inside = true) {n : Nat}
    (hn : (op.alone n pc s.driver (s.fPos file)).isSome = true) : (s.go file).isSome = true := by
  by_cases hlast : (∃ r, pc = .unlock r) ∨ ∃ k, pc = .unlockSize k
  · rcases hlast with ⟨r, rfl⟩ | ⟨k, rfl⟩ <;>
    · simp only [Shared.go, htask]
      rfl
  · have hr : ∀ r, pc ≠ .unlock r := fun r h => hlast (.inl ⟨r, h⟩)
    have hsize : ∀ k, pc ≠ .unlockSize k := fun k h => hlast (.inr ⟨k, h⟩)
    rw [Shared.go_statement htask hin hr hsize, Option.isSome_map]
    cases hs : op.statement s.driver (s.fPos file) pc with
    | some p => rfl
    | none =>
        rw [Op.alone_none hin hs hr hsize] at hn
        cases hn

theorem Op.alone_zero {driver driver' : DriverState} {fPos fPos' : Int} {pc' : CallPc}
    (h : op.statement driver fPos pc = some (pc', driver', fPos')) :
    op.alone 0 pc driver fPos = none := by
  cases pc with
  | unlock r => cases op <;> cases h
  | unlockSize k => cases op <;> cases h
  | _ => rfl

/-- A call that ends on its own in `n` statements gives the lock back before it
makes one more, whatever the other files do. -/
theorem Represents.run_holder (h : Represents s d) (ht : ∃ a, DeviceTracks d a)
    (hlock : s.lock = some file) (htask : s.task file = .call op pc) {n : Nat}
    (hn : (op.alone n pc s.driver (s.fPos file)).isSome = true) {acts : List SharedAct}
    {outs : List (Option CallEvent)} (hrun : run Shared.step s acts = some (outs, s')) :
    LockFreed s acts ∨
      s'.lock = some file ∧ acts.countP (·.isGo file) ≤ n ∧ (s'.go file).isSome = true := by
  induction acts generalizing s d pc n outs with
  | nil =>
      cases hrun
      have hin : pc.inside = true := by
        have := (h.lock file).mpr hlock
        rwa [htask] at this
      exact .inr ⟨hlock, Nat.zero_le n, Shared.go_isSome htask hin hn⟩
  | cons act acts ih =>
      obtain ⟨out, s₁, outs₁, hs, hrest, rfl⟩ := run_cons.mp hrun
      obtain ⟨d₁, h₁, he⟩ := h.step ht hs
      have ht₁ := he.tracks ht
      cases h.holderStep hlock htask hs with
      | released hlast hafter htask' hfree =>
          exact .inl (LockFreed.cons hs ⟨[], [], s₁, List.nil_prefix, rfl, hfree⟩)
      | @statement pc' hstatement htask' hlock' =>
          have htask' : s₁.task file = .call op pc' := by rw [htask', Function.update_self]
          obtain ⟨m, rfl⟩ : ∃ m, n = m + 1 := by
            cases n with
            | zero =>
                rw [Op.alone_zero hstatement] at hn
                cases hn
            | succ m => exact ⟨m, rfl⟩
          rw [Op.alone_succ hstatement] at hn
          rcases ih h₁ ht₁ hlock' htask' hn hrest with hfreed | ⟨hl, hcount, hgo⟩
          · exact .inl (hfreed.cons hs)
          · refine .inr ⟨hl, ?_, hgo⟩
            rw [List.countP_cons_of_pos (by simp [SharedAct.isGo])]
            exact Nat.succ_le_succ hcount
      | other hother hlock' htask' hdriver hpos =>
          rw [← hdriver, ← hpos] at hn
          rcases ih h₁ ht₁ hlock' htask' hn hrest with hfreed | ⟨hl, hcount, hgo⟩
          · exact .inl (hfreed.cons hs)
          · refine .inr ⟨hl, ?_, hgo⟩
            rw [List.countP_cons_of_neg (by simp [hother])]
            exact hcount

theorem Represents.run_stuck (h : Represents s d) (ht : ∃ a, DeviceTracks d a)
    (hlock : s.lock = some file) (htask : s.task file = .call op pc)
    (hnone : ∀ n, 12 ≤ n → op.alone n pc s.driver (s.fPos file) = none) {acts : List SharedAct}
    {outs : List (Option CallEvent)} (hrun : run Shared.step s acts = some (outs, s')) :
    s'.lock = some file := by
  induction acts generalizing s d pc outs with
  | nil =>
      cases hrun
      exact hlock
  | cons act acts ih =>
      obtain ⟨out, s₁, outs₁, hs, hrest, rfl⟩ := run_cons.mp hrun
      obtain ⟨d₁, h₁, he⟩ := h.step ht hs
      have ht₁ := he.tracks ht
      cases h.holderStep hlock htask hs with
      | released hlast hafter htask' hfree =>
          have hsome := hlast 12
          rw [hnone 12 (Nat.le_refl 12)] at hsome
          cases hsome
      | @statement pc' hstatement htask' hlock' =>
          have htask' : s₁.task file = .call op pc' := by rw [htask', Function.update_self]
          refine ih h₁ ht₁ hlock' htask' (fun n hn => ?_) hrest
          rw [← Op.alone_succ hstatement]
          exact hnone (n + 1) (by omega)
      | other hother hlock' htask' hdriver hpos =>
          rw [← hdriver, ← hpos] at hnone
          exact ih h₁ ht₁ hlock' htask' hnone hrest

end

/-! ## The lock is given back -/

theorem Represents.crashes_iff {op : Op} {pc : CallPc} {s : Shared} {d : Device} {file : Nat}
    {a : LogDevice} (h : Represents s d) (ht : DeviceTracks d a)
    (htask : s.task file = .call op pc) :
    op.result d.driver (d.fPos file) = none ↔ Crashes d op := by
  rw [← ht.step_eq_none_iff, Device.step_eq_result, h.file file op pc htask,
    Option.map_eq_none_iff]

/-- **The lock comes back, unless its holder crashes.** In every reachable state
whose lock is taken, by a call `op` on `file`: if `op` crashes on the device that
the calls before it made, the lock is never given back again, whatever happens; if
it does not, then in every continuation the lock is free at some point, or `file`
still has it, its next statement is defined, and it has made at most twelve. -/
theorem lock_released (limit : Nat) (hl : limit ≤ 2 ^ 56) (fPos : Nat → Int)
    {acts : List SharedAct} {outs : List (Option CallEvent)} {s : Shared} {file : Nat}
    (h : run Shared.step (.init limit hl fPos) acts = some (outs, s))
    (hlock : s.lock = some file) :
    ∃ op pc d, s.task file = .call op pc ∧
      run Device.step (.init limit hl fPos) ((effects outs).map Prod.fst)
        = some ((effects outs).map Prod.snd, d) ∧
      ∀ acts' outs' s', run Shared.step s acts' = some (outs', s') →
        (Crashes d op → s'.lock = some file) ∧
        (¬ Crashes d op → LockFreed s acts' ∨
          s'.lock = some file ∧ acts'.countP (·.isGo file) ≤ 12 ∧
            (s'.step (.go file)).isSome = true) := by
  obtain ⟨⟨d, hrun, hr⟩, -⟩ := run_represents h
  obtain ⟨a, -, ht, -⟩ := run_tracks hrun
  have hin := (hr.lock file).mpr hlock
  cases htask : s.task file with
  | idle =>
      rw [htask] at hin
      cases hin
  | call op pc =>
      rw [htask] at hin
      have hheld := hr.held file op pc htask hin
      have hcrash := hr.crashes_iff ht htask
      refine ⟨op, pc, d, rfl, hrun, fun acts' outs' s' hrun' => ⟨fun hc => ?_, fun hc => ?_⟩⟩
      · refine hr.run_stuck ⟨a, ht⟩ hlock htask (fun n hn => ?_) hrun'
        rw [← hheld n hn]
        exact hcrash.mpr hc
      · refine hr.run_holder ⟨a, ht⟩ hlock htask (n := 12) ?_ hrun'
        rw [← hheld 12 (Nat.le_refl 12)]
        exact Option.isSome_iff_ne_none.mpr fun hnone => hc (hcrash.mp hnone)

/-- A write that has the lock. -/
theorem lock_released_write :
    let acts : List SharedAct := [.call (.write (.quiet 0 [97, newline] (by decide))), .go 0]
    ∃ outs s, run Shared.step (.init 4096 (by decide) fun _ => 0) acts = some (outs, s) ∧
      ∃ op pc d, s.task 0 = .call op pc ∧
        run Device.step (.init 4096 (by decide) fun _ => 0) ((effects outs).map Prod.fst)
          = some ((effects outs).map Prod.snd, d) ∧
        ∀ acts' outs' s', run Shared.step s acts' = some (outs', s') →
          (Crashes d op → s'.lock = some 0) ∧
          (¬ Crashes d op → LockFreed s acts' ∨
            s'.lock = some 0 ∧ acts'.countP (·.isGo 0) ≤ 12 ∧
              (s'.step (.go 0)).isSome = true) := by
  intro acts
  have h : (run Shared.step (.init 4096 (by decide) fun _ => 0) acts).map (fun p => p.2.lock)
      = some (some 0) := by
    decide
  obtain ⟨⟨outs, s⟩, hrun, hlock⟩ := Option.map_eq_some_iff.mp h
  exact ⟨outs, s, hrun, lock_released 4096 (by decide) (fun _ => 0) hrun hlock⟩

/-! ## Every call can return -/

theorem CallPc.eq_start {pc : CallPc} (hout : pc.inside = false) (hafter : pc.after = false) :
    pc = .start := by
  cases pc <;> simp_all [CallPc.inside, CallPc.after]

/-- Steps of calls that were made before. -/
def OnlyGoes (acts : List SharedAct) : Prop := ∀ act ∈ acts, ∃ f, act = .go f

/-- The call that has the lock crashes. -/
def HolderCrashes (d₀ : Device) (outs : List (Option CallEvent)) (s : Shared) : Prop :=
  ∃ file op pc d, s.lock = some file ∧ s.task file = .call op pc ∧
    run Device.step d₀ ((effects outs).map Prod.fst) = some ((effects outs).map Prod.snd, d) ∧
    Crashes d op

/-- Steps of the calls there are bring `file` to its return, or the lock to a call that
crashes. -/
def CanReturn (d₀ : Device) (outs : List (Option CallEvent)) (s : Shared) (file : Nat) : Prop :=
  ∃ acts' outs' s', OnlyGoes acts' ∧ run Shared.step s acts' = some (outs', s') ∧
    (s'.task file = .idle ∨ HolderCrashes d₀ (outs ++ outs') s')

section
variable {op : Op} {pc : CallPc} {s s' : Shared} {d₀ d : Device} {file : Nat}
  {outs : List (Option CallEvent)}

theorem OnlyGoes.replicate (n file : Nat) : OnlyGoes (List.replicate n (.go file)) := by
  intro act hmem
  exact ⟨file, List.eq_of_mem_replicate hmem⟩

theorem CanReturn.after {acts : List SharedAct} {outs' : List (Option CallEvent)}
    (hgo : OnlyGoes acts) (hrun : run Shared.step s acts = some (outs', s'))
    (h : CanReturn d₀ (outs ++ outs') s' file) : CanReturn d₀ outs s file := by
  obtain ⟨acts', outs'', s'', hgo', hrun', hend⟩ := h
  refine ⟨acts ++ acts', outs' ++ outs'', s'', ?_, ?_, ?_⟩
  · intro act hmem
    rcases List.mem_append.mp hmem with hmem | hmem
    · exact hgo act hmem
    · exact hgo' act hmem
  · exact run_append.mpr ⟨outs', s', outs'', hrun, hrun', rfl⟩
  · rwa [List.append_assoc] at hend

theorem canReturn_of_after (htask : s.task file = .call op pc) (hafter : pc.after = true) :
    CanReturn d₀ outs s file := by
  have hreturn : ∀ {t : Shared} {r : Reply} {outs : List (Option CallEvent)},
      t.task file = .call op (.returns r) → CanReturn d₀ outs t file := by
    intro t r outs ht
    refine ⟨[.go file], [some (.returned file r)],
      { t with task := Function.update t.task file .idle }, OnlyGoes.replicate 1 file, ?_,
      .inl (Function.update_self ..)⟩
    refine run_cons.mpr ⟨_, _, [], ?_, rfl, rfl⟩
    simp only [Shared.step, Shared.go, ht]
  cases pc with
  | returns r => exact hreturn htask
  | setPos newpos =>
      have hs : s.step (.go file) = some (none, Shared.goTo { s with
          fPos := Function.update s.fPos file (aesdLlseekTo (s.fPos file) newpos).2 } file op
            (.returns ⟨(aesdLlseekTo (s.fPos file) newpos).1, []⟩)) := by
        simp only [Shared.step, Shared.go, htask]
      have hreturns : (Shared.goTo { s with
          fPos := Function.update s.fPos file (aesdLlseekTo (s.fPos file) newpos).2 } file op
            (.returns ⟨(aesdLlseekTo (s.fPos file) newpos).1, []⟩)).task file
          = .call op (.returns ⟨(aesdLlseekTo (s.fPos file) newpos).1, []⟩) :=
        Function.update_self ..
      exact (hreturn hreturns).after (OnlyGoes.replicate 1 file)
        (run_cons.mpr ⟨_, _, [], hs, rfl, rfl⟩)
  | _ => cases hafter

theorem Represents.goes (h : Represents s d) (ht : ∃ a, DeviceTracks d a)
    (hlock : s.lock = some file) (htask : s.task file = .call op pc) {n : Nat}
    (hn : (op.alone n pc s.driver (s.fPos file)).isSome = true) :
    ∃ out s₁ d₁, s.step (.go file) = some (out, s₁) ∧ Represents s₁ d₁ ∧
      TakesEffect d out d₁ ∧ HolderStep s file op pc s₁ (.go file) := by
  have hin : pc.inside = true := by
    have := (h.lock file).mpr hlock
    rwa [htask] at this
  obtain ⟨⟨out, s₁⟩, hs⟩ := Option.isSome_iff_exists.mp (Shared.go_isSome htask hin hn)
  obtain ⟨d₁, h₁, he⟩ := h.step ht (show s.step (.go file) = _ from hs)
  exact ⟨out, s₁, d₁, hs, h₁, he, h.holderStep hlock htask hs⟩

/-- **The lock is released** by the holder's own statements, if it does not crash. -/
theorem Represents.release (h : Represents s d) (ht : ∃ a, DeviceTracks d a)
    (hlock : s.lock = some file) (htask : s.task file = .call op pc) {n : Nat}
    (hn : (op.alone n pc s.driver (s.fPos file)).isSome = true) :
    ∃ m outs s' pc', run Shared.step s (List.replicate m (.go file)) = some (outs, s') ∧
      s'.lock = none ∧ s'.task = Function.update s.task file (.call op pc') ∧
      pc'.after = true := by
  induction n generalizing s d pc with
  | zero =>
      obtain ⟨out, s₁, d₁, hs, h₁, he, hstep⟩ := h.goes ht hlock htask hn
      cases hstep with
      | released hlast hafter htask' hfree =>
          exact ⟨1, _, _, _, run_cons.mpr ⟨out, s₁, [], hs, rfl, rfl⟩, hfree, htask', hafter⟩
      | statement hstatement htask' hlock' =>
          rw [Op.alone_zero hstatement] at hn
          cases hn
      | other hother => exact absurd rfl (of_decide_eq_false hother)
  | succ n ih =>
      obtain ⟨out, s₁, d₁, hs, h₁, he, hstep⟩ := h.goes ht hlock htask hn
      cases hstep with
      | released hlast hafter htask' hfree =>
          exact ⟨1, _, _, _, run_cons.mpr ⟨out, s₁, [], hs, rfl, rfl⟩, hfree, htask', hafter⟩
      | @statement pc₁ hstatement htask₁ hlock₁ =>
          rw [Op.alone_succ hstatement] at hn
          have hself : s₁.task file = .call op pc₁ := by rw [htask₁, Function.update_self]
          obtain ⟨m, outs, s', pc', hrun, hfree, htask', hafter⟩ :=
            ih h₁ (he.tracks ht) hlock₁ hself hn
          refine ⟨m + 1, out :: outs, s', pc', run_cons.mpr ⟨out, s₁, outs, hs, hrun, rfl⟩,
            hfree, ?_, hafter⟩
          rw [htask', htask₁, Function.update_idem]
      | other hother => exact absurd rfl (of_decide_eq_false hother)

end

section
variable {limit : Nat} {hl : limit ≤ 2 ^ 56} {fPos : Nat → Int} {acts : List SharedAct}
  {outs : List (Option CallEvent)} {s : Shared} {op : Op} {pc : CallPc} {file : Nat}

/-- **The holder** crashes, or gives the lock back and is past it. -/
theorem holder_releases (h : run Shared.step (.init limit hl fPos) acts = some (outs, s))
    (hlock : s.lock = some file) :
    HolderCrashes (.init limit hl fPos) outs s ∨
      ∃ n outs' s' op pc, run Shared.step s (List.replicate n (.go file)) = some (outs', s') ∧
        s'.lock = none ∧ s'.task = Function.update s.task file (.call op pc) ∧
        pc.after = true := by
  obtain ⟨⟨d, hrun, hr⟩, -⟩ := run_represents h
  obtain ⟨a, -, ht, -⟩ := run_tracks hrun
  have hin := (hr.lock file).mpr hlock
  cases htask : s.task file with
  | idle =>
      rw [htask] at hin
      cases hin
  | call op pc =>
      rw [htask] at hin
      by_cases hc : Crashes d op
      · exact .inl ⟨file, op, pc, d, hlock, htask, hrun, hc⟩
      · have hdefined : (op.alone 12 pc s.driver (s.fPos file)).isSome = true := by
          rw [← hr.held file op pc htask hin 12 (Nat.le_refl 12), Option.isSome_iff_ne_none]
          intro hnone
          rw [hr.crashes_iff ht htask] at hnone
          exact hc hnone
        obtain ⟨n, outs', s', pc', hrun', hfree, htask', hafter⟩ :=
          hr.release ⟨a, ht⟩ hlock htask hdefined
        exact .inr ⟨n, outs', s', op, pc', hrun', hfree, htask', hafter⟩

theorem canReturn_of_free (h : run Shared.step (.init limit hl fPos) acts = some (outs, s))
    (hfree : s.lock = none) (htask : s.task file = .call op pc) :
    CanReturn (.init limit hl fPos) outs s file := by
  obtain ⟨⟨d, hrun, hr⟩, -⟩ := run_represents h
  cases hafter : pc.after with
  | true => exact canReturn_of_after htask hafter
  | false =>
      have hout : pc.inside = false := by
        cases hin : pc.inside with
        | false => rfl
        | true =>
            have hlocked := (hr.lock file).mp (by rw [htask]; exact hin)
            rw [hfree] at hlocked
            cases hlocked
      obtain rfl := CallPc.eq_start hout hafter
      -- up to the lock, or past it
      have hgo : ∀ {out : Option CallEvent} {s₁ : Shared}, s.step (.go file) = some (out, s₁) →
          CanReturn (.init limit hl fPos) (outs ++ [out]) s₁ file →
          CanReturn (.init limit hl fPos) outs s file := fun hs hreturn =>
        hreturn.after (OnlyGoes.replicate 1 file) (run_cons.mpr ⟨_, _, [], hs, rfl, rfl⟩)
      cases hopen : op.opening (s.fPos file) with
      | effect r pos =>
          have hs : s.step (.go file) = some (s.effect file op r pos (.returns r)) := by
            simp only [Shared.step, Shared.go, htask, Shared.startCall, hopen]
          exact hgo hs (canReturn_of_after (Function.update_self ..) rfl)
      | lock interrupted pc =>
          cases interrupted with
          | true =>
              have hs : s.step (.go file) = some (s.effect file op ⟨-eRestartSys, []⟩
                  (s.fPos file) (.returns ⟨-eRestartSys, []⟩)) := by
                simp only [Shared.step, Shared.go, htask, Shared.startCall, hopen]
              exact hgo hs (canReturn_of_after (Function.update_self ..) rfl)
          | false =>
              have hs : s.step (.go file)
                  = some (none, Shared.goTo { s with lock := some file } file op pc) := by
                simp only [Shared.step, Shared.go, htask, Shared.startCall, hopen, hfree, if_true]
              refine hgo hs ?_
              have hrun₁ := run_snoc.mpr ⟨outs, s, none, h, hs, rfl⟩
              rcases holder_releases hrun₁ rfl with hcrash |
                ⟨n, outs', s', op', pc', hrun', -, htask', hafter'⟩
              · exact ⟨[], [], _, fun _ hmem => (by cases hmem), rfl,
                  .inr (by rwa [List.append_nil])⟩
              · refine CanReturn.after (OnlyGoes.replicate n file) hrun' ?_
                exact canReturn_of_after (by rw [htask', Function.update_self]) hafter'

end

/-- **The calls do not lock each other out.** From every reachable state, and for every
file with a call: some statements of the calls there are, and of no others, bring the
call to its return, or bring the lock to a call that crashes. -/
theorem calls_return (limit : Nat) (hl : limit ≤ 2 ^ 56) (fPos : Nat → Int)
    {acts : List SharedAct} {outs : List (Option CallEvent)} {s : Shared} {file : Nat}
    {op : Op} {pc : CallPc} (h : run Shared.step (.init limit hl fPos) acts = some (outs, s))
    (htask : s.task file = .call op pc) :
    ∃ acts' outs' s', OnlyGoes acts' ∧ run Shared.step s acts' = some (outs', s') ∧
      (s'.task file = .idle ∨ HolderCrashes (.init limit hl fPos) (outs ++ outs') s') := by
  cases hlock : s.lock with
  | none => exact canReturn_of_free h hlock htask
  | some g =>
      rcases holder_releases h hlock with hcrash |
        ⟨n, outs', s', op', pc', hrun', hfree, htask', hafter⟩
      · exact ⟨[], [], s, fun _ hmem => (by cases hmem), rfl, .inr (by rwa [List.append_nil])⟩
      · refine CanReturn.after (OnlyGoes.replicate n g) hrun' ?_
        by_cases hf : file = g
        · subst hf
          exact canReturn_of_after (by rw [htask', Function.update_self]) hafter
        · have hsame : s'.task file = .call op pc := by
            rw [htask', Function.update_of_ne hf, htask]
          exact canReturn_of_free (run_append.mpr ⟨outs, s, outs', h, hrun', rfl⟩) hfree hsame

/-- A read that waits for a write. -/
theorem calls_return_waiting :
    let acts : List SharedAct := [.call (.write (.quiet 0 [97, newline] (by decide))), .go 0,
      .call (.read ⟨1, 5, .quiet⟩)]
    ∃ outs s, run Shared.step (.init 4096 (by decide) fun _ => 0) acts = some (outs, s) ∧
      s.step (.go 1) = none ∧
      ∃ acts' outs' s', OnlyGoes acts' ∧ run Shared.step s acts' = some (outs', s') ∧
        (s'.task 1 = .idle ∨
          HolderCrashes (.init 4096 (by decide) fun _ => 0) (outs ++ outs') s') := by
  intro acts
  have h : (run Shared.step (.init 4096 (by decide) fun _ => 0) acts).map
      (fun p => (p.2.lock, (p.2.step (.go 1)).isNone)) = some (some 0, true) := by
    decide
  obtain ⟨⟨outs, s⟩, hrun, hwaits⟩ := Option.map_eq_some_iff.mp h
  have htask : s.task 1 = .call (.read ⟨1, 5, .quiet⟩) .start := by
    cases hrun
    rfl
  exact ⟨outs, s, hrun, Option.isNone_iff_eq_none.mp (Prod.mk.inj hwaits).2,
    calls_return 4096 (by decide) (fun _ => 0) hrun htask⟩

end Aesd.Driver
