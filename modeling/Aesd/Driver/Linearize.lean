import Aesd.Driver.Alone
import Aesd.Driver.Safety

/-!
# Calls are atomic

Whatever way the statements of the calls of different files interleave, the
calls take effect one after the other, each as the one step it is in
`Device.step`: the lock keeps the calls apart that need it
(`calls_linearize`).
-/

namespace Aesd.Driver

open Aesd.Lib

/-! ## What happened -/

/-- The calls that took effect, in order. -/
def effects (events : List (Option CallEvent)) : List (Op × Reply) :=
  events.filterMap fun
    | some (.effect op r) => some (op, r)
    | _ => none

/-- The file of an event. -/
def CallEvent.file : CallEvent → Nat
  | .called op | .effect op _ => op.file
  | .returned file _ => file

/-- The events of one file. -/
def eventsOf (file : Nat) (events : List (Option CallEvent)) : List CallEvent :=
  (events.filterMap id).filter fun e => e.file = file

/-- Where a file is between its calls. -/
inductive Phase where
  | idle
  | called (op : Op)
  | done (r : Reply)

/-- Events of one file in which every call takes effect once, between the point
where it comes in and the one where it returns, and returns the reply of its
effect. -/
inductive InPhase : List CallEvent → Phase → Prop where
  | nil : InPhase [] .idle
  | called {events : List CallEvent} (op : Op) (h : InPhase events .idle) :
      InPhase (events ++ [.called op]) (.called op)
  | effect {events : List CallEvent} {op : Op} (r : Reply) (h : InPhase events (.called op)) :
      InPhase (events ++ [.effect op r]) (.done r)
  | returned {events : List CallEvent} {r : Reply} (file : Nat) (h : InPhase events (.done r)) :
      InPhase (events ++ [.returned file r]) .idle

/-- Whether a file's call has the lock. -/
def Task.inside : Task → Bool
  | .idle => false
  | .call _ pc => pc.inside

/-- The position of a file, as far as the calls that took effect go. -/
def Task.pos (fPos : Int) : Task → Int
  | .call _ (.setPos newpos) => (aesdLlseekTo fPos newpos).2
  | _ => fPos

/-- The phase of a file. -/
def Task.phase (fPos : Int) : Task → Phase
  | .idle => .idle
  | .call _ (.returns r) => .done r
  | .call _ (.setPos newpos) => .done ⟨(aesdLlseekTo fPos newpos).1, []⟩
  | .call op _ => .called op

/-- The calls that took effect have made the device `d`: the driver is the one of
`d` while nobody has the lock, and who has it will end with the result that its
call has on `d`. -/
structure Represents (s : Shared) (d : Device) : Prop where
  lock : ∀ f, (s.task f).inside = true ↔ s.lock = some f
  free : s.lock = none → s.driver = d.driver
  file : ∀ f op pc, s.task f = .call op pc → op.file = f
  pos : ∀ f, (s.task f).inside = false → d.fPos f = (s.task f).pos (s.fPos f)
  held : ∀ f op pc, s.task f = .call op pc → pc.inside = true → ∀ n, 12 ≤ n →
    op.result d.driver (d.fPos f) = op.alone n pc s.driver (s.fPos f)

theorem represents_init (limit : Nat) (h : limit ≤ 2 ^ 56) (fPos : Nat → Int) :
    Represents (.init limit h fPos) (.init limit h fPos) where
  lock := fun f => by simp [Shared.init, Task.inside]
  free := fun _ => rfl
  file := fun f op pc hf => by cases hf
  pos := fun f _ => rfl
  held := fun f op pc hf => by cases hf

section
variable {s : Shared} {d d' : Device} {file : Nat}

/-- **One file moves.** It may take or give back the lock, and only who has the
lock changes the driver. -/
theorem Represents.move (h : Represents s d) {t : Task} {driver : DriverState}
    {lock : Option Nat} {fPos : Int}
    (hlock : t.inside = true ↔ lock = some file)
    (hothers : ∀ f, f ≠ file → (lock = some f ↔ s.lock = some f))
    (hfree : lock = none → driver = d'.driver)
    (hfile : ∀ op pc, t = .call op pc → op.file = file)
    (hpos : t.inside = false → d'.fPos file = t.pos fPos)
    (hheld : ∀ op pc, t = .call op pc → pc.inside = true → ∀ n, 12 ≤ n →
      op.result d'.driver (d'.fPos file) = op.alone n pc driver fPos)
    (hd : ∀ f, f ≠ file → d'.fPos f = d.fPos f)
    (hsame : ∀ f, f ≠ file → s.lock = some f → driver = s.driver ∧ d'.driver = d.driver) :
    Represents ⟨driver, lock, Function.update s.fPos file fPos,
      Function.update s.task file t⟩ d' := by
  constructor
  · intro f
    by_cases hf : f = file
    · subst hf
      show (Function.update s.task f t f).inside = true ↔ lock = some f
      rw [Function.update_self, hlock]
    · show (Function.update s.task file t f).inside = true ↔ lock = some f
      rw [Function.update_of_ne hf, h.lock, hothers f hf]
  · exact hfree
  · intro f op pc hf
    have hf : Function.update s.task file t f = .call op pc := hf
    by_cases hff : f = file
    · subst hff
      rw [Function.update_self] at hf
      exact hfile op pc hf
    · rw [Function.update_of_ne hff] at hf
      exact h.file f op pc hf
  · intro f hin
    have hin : (Function.update s.task file t f).inside = false := hin
    show d'.fPos f = (Function.update s.task file t f).pos (Function.update s.fPos file fPos f)
    by_cases hf : f = file
    · subst hf
      rw [Function.update_self] at hin
      rw [Function.update_self, Function.update_self, hpos hin]
    · rw [Function.update_of_ne hf] at hin
      rw [Function.update_of_ne hf, Function.update_of_ne hf, hd f hf, h.pos f hin]
  · intro f op pc hf hin n hn
    have hf : Function.update s.task file t f = .call op pc := hf
    show op.result d'.driver (d'.fPos f) = op.alone n pc driver (Function.update s.fPos file fPos f)
    by_cases hff : f = file
    · subst hff
      rw [Function.update_self] at hf
      rw [Function.update_self]
      exact hheld op pc hf hin n hn
    · rw [Function.update_of_ne hff] at hf
      have hlocked : s.lock = some f := by
        rw [← h.lock, hf]
        exact hin
      obtain ⟨hdriver, hdd⟩ := hsame f hff hlocked
      rw [Function.update_of_ne hff, hdriver, hdd, hd f hff]
      exact h.held f op pc hf hin n hn

/-- An event that is no effect leaves the device. -/
def TakesEffect (d : Device) : Option CallEvent → Device → Prop
  | some (.effect op r), d' => d.step op = some (r, d')
  | _, d' => d' = d

theorem Shared.go_statement {op : Op} {pc : CallPc} (ht : s.task file = .call op pc)
    (hin : pc.inside = true) (hr : ∀ r, pc ≠ .unlock r) (hsize : ∀ n, pc ≠ .unlockSize n) :
    s.go file = (op.statement s.driver (s.fPos file) pc).map fun p =>
      (none, Shared.goTo { s with
        driver := p.2.1, fPos := Function.update s.fPos file p.2.2 } file op p.1) := by
  unfold Shared.go
  rw [ht]
  cases pc <;>
    first
    | exact absurd rfl (hr _)
    | exact absurd rfl (hsize _)
    | exact absurd hin Bool.false_ne_true
    | (dsimp only
       cases op.statement s.driver (s.fPos file) _ <;> rfl)

/-- What a step can do. -/
inductive SharedStep (s : Shared) : SharedAct → Option CallEvent → Shared → Prop where
  | called (op : Op) (hidle : s.task op.file = .idle) :
      SharedStep s (.call op) (some (.called op)) (s.goTo op.file op .start)
  | effect {file : Nat} {op : Op} {r : Reply} {fPos : Int}
      (htask : s.task file = .call op .start)
      (hresult : ∀ driver, op.result driver (s.fPos file) = some (r, driver, fPos)) :
      SharedStep s (.go file) (some (.effect op r)) (s.effect file op r fPos (.returns r)).2
  | takeLock {file : Nat} {op : Op} {pc : CallPc} (htask : s.task file = .call op .start)
      (hfree : s.lock = none) (hopen : op.opening (s.fPos file) = .lock false pc)
      (hin : pc.inside = true) :
      SharedStep s (.go file) none (Shared.goTo { s with lock := some file } file op pc)
  | statement {file : Nat} {op : Op} {pc pc' : CallPc} {driver : DriverState} {fPos : Int}
      (htask : s.task file = .call op pc) (hin : pc.inside = true)
      (hs : op.statement s.driver (s.fPos file) pc = some (pc', driver, fPos)) :
      SharedStep s (.go file) none (Shared.goTo { s with
        driver, fPos := Function.update s.fPos file fPos } file op pc')
  | unlock {file : Nat} {op : Op} {r : Reply} (htask : s.task file = .call op (.unlock r)) :
      SharedStep s (.go file) (some (.effect op r))
        (Shared.effect { s with lock := none } file op r (s.fPos file) (.returns r)).2
  | unlockSize {file : Nat} {op : Op} {fileSize : Int} {r : Reply}
      (htask : s.task file = .call op (.unlockSize fileSize))
      (hr : r = ⟨(aesdLlseekTo (s.fPos file) (op.newpos fileSize)).1, []⟩) :
      SharedStep s (.go file) (some (.effect op r))
        (Shared.effect { s with lock := none } file op r (s.fPos file)
          (.setPos (op.newpos fileSize))).2
  | setPos {file : Nat} {op : Op} {newpos : Int} {r : Reply} {fPos : Int}
      (htask : s.task file = .call op (.setPos newpos))
      (hr : aesdLlseekTo (s.fPos file) newpos = (r.ret, fPos)) (hdata : r.data = []) :
      SharedStep s (.go file) none (Shared.goTo { s with
        fPos := Function.update s.fPos file fPos } file op (.returns r))
  | returned {file : Nat} {op : Op} {r : Reply} (htask : s.task file = .call op (.returns r)) :
      SharedStep s (.go file) (some (.returned file r))
        { s with task := Function.update s.task file .idle }

theorem Op.opening_inside {op : Op} {fPos : Int} {b : Bool} {pc : CallPc}
    (h : op.opening fPos = .lock b pc) : pc.inside = true := by
  cases op with
  | «open» f => cases h
  | write c =>
      cases h
      rfl
  | read c =>
      cases h
      rfl
  | llseek f off whence i =>
      simp only [Op.opening] at h
      split at h
      · cases h
      split at h
      · cases h
      split at h <;> cases h
      rfl
  | ioctl f cmd seekto env =>
      simp only [Op.opening] at h
      split at h
      · split at h <;> cases h
        rfl
      · cases h

/-- **A step** is one of these. -/
theorem Shared.step_cases {act : SharedAct} {out : Option CallEvent} {s' : Shared}
    (hs : s.step act = some (out, s')) : SharedStep s act out s' := by
  cases act with
  | call op =>
      simp only [Shared.step] at hs
      split at hs
      · rename_i hidle
        cases hs
        exact .called op hidle
      · cases hs
  | go file =>
      cases htask : s.task file with
      | idle =>
          simp only [Shared.step, Shared.go, htask] at hs
          cases hs
      | call op pc =>
          cases hpc : pc with
          | start =>
              subst hpc
              simp only [Shared.step, Shared.go, htask, Shared.startCall] at hs
              split at hs
              · rename_i r fPos hopen
                cases hs
                exact .effect htask (Op.result_of_effect hopen)
              · rename_i pc hopen
                cases hs
                exact .effect htask (Op.result_of_interrupted hopen)
              · rename_i pc hopen
                split at hs <;> cases hs
                rename_i hfree
                exact .takeLock htask hfree hopen (Op.opening_inside hopen)
          | unlock r =>
              subst hpc
              simp only [Shared.step, Shared.go, htask] at hs
              cases hs
              exact .unlock htask
          | unlockSize fileSize =>
              subst hpc
              simp only [Shared.step, Shared.go, htask] at hs
              cases hs
              exact .unlockSize htask rfl
          | setPos newpos =>
              subst hpc
              simp only [Shared.step, Shared.go, htask] at hs
              cases hs
              exact .setPos htask rfl rfl
          | returns r =>
              subst hpc
              simp only [Shared.step, Shared.go, htask] at hs
              cases hs
              exact .returned htask
          | _ =>
              have hin : pc.inside = true := by
                rw [hpc]
                rfl
              have hgo := Shared.go_statement htask hin (by simp [hpc]) (by simp [hpc])
              have hs : s.go file = some (out, s') := hs
              rw [hgo, Option.map_eq_some_iff] at hs
              obtain ⟨⟨pc', driver, fPos⟩, hstatement, hs⟩ := hs
              cases hs
              exact .statement htask hin hstatement

theorem Represents.lock_ne (h : Represents s d) (hin : (s.task file).inside = false) :
    s.lock ≠ some file := by
  intro hlock
  rw [(h.lock file).mpr hlock] at hin
  cases hin

/-- **A call takes effect without the lock.** -/
theorem Represents.effect (h : Represents s d) {op : Op} {r : Reply} {fPos : Int}
    (ht : s.task file = .call op .start)
    (hresult : ∀ driver, op.result driver (s.fPos file) = some (r, driver, fPos)) :
    ∃ d', Represents (s.effect file op r fPos (.returns r)).2 d' ∧ d.step op = some (r, d') := by
  have hfile := h.file file op .start ht
  have hin : (s.task file).inside = false := by
    rw [ht]
    rfl
  have hpos : d.fPos file = s.fPos file := by
    have := h.pos file hin
    rwa [ht] at this
  refine ⟨⟨d.driver, Function.update d.fPos file fPos⟩, ?_, ?_⟩
  · refine h.move ?_ (fun f _ => Iff.rfl) h.free ?_ ?_ ?_ ?_ (fun f _ _ => ⟨rfl, rfl⟩)
    · constructor
      · intro hfalse
        cases hfalse
      · intro hlock
        exact absurd hlock (h.lock_ne hin)
    · rintro op' pc' ⟨⟩
      exact hfile
    · intro _
      exact Function.update_self ..
    · rintro op' pc' ⟨⟩ hfalse
      cases hfalse
    · intro f hf
      exact Function.update_of_ne hf ..
  · rw [Device.step_eq_result, hfile, hpos, hresult]
    rfl

theorem Represents.takeLock (h : Represents s d) (ht : ∃ a, DeviceTracks d a) {op : Op}
    {pc : CallPc} (htask : s.task file = .call op .start) (hfree : s.lock = none)
    (hopen : op.opening (s.fPos file) = .lock false pc) (hin : pc.inside = true) :
    Represents (Shared.goTo { s with lock := some file } file op pc) d := by
  obtain ⟨a, ht⟩ := ht
  have hfile := h.file file op .start htask
  have hpos : d.fPos file = s.fPos file := by
    have := h.pos file (by rw [htask]; rfl)
    rwa [htask] at this
  have hmove : Represents ⟨s.driver, some file, Function.update s.fPos file (s.fPos file),
      Function.update s.task file (.call op pc)⟩ d := by
    refine h.move ?_ ?_ ?_ ?_ ?_ ?_ (fun f _ => rfl) (fun f _ _ => ⟨rfl, rfl⟩)
    · exact ⟨fun _ => rfl, fun _ => hin⟩
    · intro f hf
      rw [hfree]
      simp [Ne.symm hf]
    · intro hnone
      cases hnone
    · rintro op' pc' ⟨⟩
      exact hfile
    · intro hout
      have hout : pc.inside = false := hout
      rw [hin] at hout
      cases hout
    · rintro op' pc' ⟨⟩ - n hn
      rw [hpos, h.free hfree]
      exact ht.result_alone hopen hn
  rw [Function.update_eq_self] at hmove
  exact hmove

/-- **The lock is given back**, and the call takes effect. -/
theorem Represents.unlock (h : Represents s d) {op : Op} {pc pc' : CallPc} {r : Reply}
    {fPos : Int} (htask : s.task file = .call op pc) (hin : pc.inside = true)
    (halone : op.alone 12 pc s.driver (s.fPos file) = some (r, s.driver, fPos))
    (hout : pc'.inside = false) (hpos : (Task.call op pc').pos (s.fPos file) = fPos) :
    ∃ d', Represents (Shared.effect { s with lock := none } file op r (s.fPos file) pc').2 d' ∧
      d.step op = some (r, d') := by
  have hfile := h.file file op pc htask
  have hlock : s.lock = some file := by
    rw [← h.lock, htask]
    exact hin
  refine ⟨⟨s.driver, Function.update d.fPos file fPos⟩, ?_, ?_⟩
  · refine h.move ?_ ?_ (fun _ => rfl) ?_ ?_ ?_ ?_ ?_
    · constructor
      · intro hin'
        have hin' : pc'.inside = true := hin'
        rw [hout] at hin'
        cases hin'
      · intro hnone
        cases hnone
    · intro f hf
      rw [hlock]
      simp [Ne.symm hf]
    · rintro op' pc'' ⟨⟩
      exact hfile
    · intro _
      rw [hpos]
      exact Function.update_self ..
    · rintro op' pc'' ⟨⟩ hin'
      rw [hout] at hin'
      cases hin'
    · intro f hf
      exact Function.update_of_ne hf ..
    · intro f hf hother
      rw [hlock] at hother
      cases hother
      exact absurd rfl hf
  · rw [Device.step_eq_result, hfile, h.held file op pc htask hin 12 (Nat.le_refl 12), halone]
    rfl

/-- **A statement under the lock.** -/
theorem Represents.statement (h : Represents s d) {op : Op} {pc pc' : CallPc}
    {driver : DriverState} {fPos : Int} (htask : s.task file = .call op pc)
    (hin : pc.inside = true)
    (hs : op.statement s.driver (s.fPos file) pc = some (pc', driver, fPos)) :
    Represents (Shared.goTo { s with
      driver, fPos := Function.update s.fPos file fPos } file op pc') d := by
  have hfile := h.file file op pc htask
  have hin' := Op.statement_inside hs
  have hlock : s.lock = some file := by
    rw [← h.lock, htask]
    exact hin
  refine h.move ?_ (fun f _ => Iff.rfl) ?_ ?_ ?_ ?_ (fun f _ => rfl) ?_
  · exact ⟨fun _ => hlock, fun _ => hin'⟩
  · intro hnone
    rw [hlock] at hnone
    cases hnone
  · rintro op' pc'' ⟨⟩
    exact hfile
  · intro hout
    have hout : pc'.inside = false := hout
    rw [hin'] at hout
    cases hout
  · rintro op' pc'' ⟨⟩ - n hn
    rw [← Op.alone_succ hs]
    exact h.held file op pc htask hin (n + 1) (by omega)
  · intro f hf hother
    rw [hlock] at hother
    cases hother
    exact absurd rfl hf

/-- **A file outside the lock** moves on, and no call takes effect. -/
theorem Represents.outside (h : Represents s d) {t : Task} {fPos : Int}
    (hin : (s.task file).inside = false) (hout : t.inside = false)
    (hfile : ∀ op pc, t = .call op pc → op.file = file)
    (hpos : t.pos fPos = (s.task file).pos (s.fPos file)) :
    Represents ⟨s.driver, s.lock, Function.update s.fPos file fPos,
      Function.update s.task file t⟩ d := by
  refine h.move ?_ (fun f _ => Iff.rfl) h.free hfile ?_ ?_ (fun f _ => rfl)
    (fun f _ _ => ⟨rfl, rfl⟩)
  · rw [hout]
    constructor
    · intro hfalse
      cases hfalse
    · intro hlock
      exact absurd hlock (h.lock_ne hin)
  · intro _
    rw [hpos]
    exact h.pos file hin
  · rintro op pc rfl hin'
    rw [show (Task.call op pc).inside = pc.inside from rfl, hin'] at hout
    cases hout

theorem Represents.step (h : Represents s d) (ht : ∃ a, DeviceTracks d a) {act : SharedAct}
    {out : Option CallEvent} {s' : Shared} (hs : s.step act = some (out, s')) :
    ∃ d', Represents s' d' ∧ TakesEffect d out d' := by
  cases Shared.step_cases hs with
  | called op hidle =>
      have hmove := h.outside (t := .call op .start) (by rw [hidle]; rfl) rfl
        (by rintro op' pc' ⟨⟩; rfl) (by rw [hidle]; rfl)
      rw [Function.update_eq_self] at hmove
      exact ⟨d, hmove, rfl⟩
  | effect htask hresult => exact h.effect htask hresult
  | takeLock htask hfree hopen hin => exact ⟨d, h.takeLock ht htask hfree hopen hin, rfl⟩
  | statement htask hin hstatement => exact ⟨d, h.statement htask hin hstatement, rfl⟩
  | unlock htask => exact h.unlock htask rfl (Op.alone_unlock 12 _) rfl rfl
  | unlockSize htask hr =>
      subst hr
      exact h.unlock htask rfl rfl rfl rfl
  | setPos htask hr hdata =>
      refine ⟨d, h.outside (by rw [htask]; rfl) rfl ?_ ?_, rfl⟩
      · rintro op' pc' ⟨⟩
        exact h.file _ _ _ htask
      · rw [htask]
        show _ = (aesdLlseekTo (s.fPos _) _).2
        rw [hr]
        rfl
  | returned htask =>
      have hmove := h.outside (t := .idle) (by rw [htask]; rfl) rfl
        (by rintro op' pc' ⟨⟩) (by rw [htask]; rfl)
      rw [Function.update_eq_self] at hmove
      exact ⟨d, hmove, rfl⟩

/-! ## Events of one file -/

theorem eventsOf_own {out : Option CallEvent} (h : ∀ e, out = some e → e.file = file)
    (events : List (Option CallEvent)) :
    eventsOf file (events ++ [out]) = eventsOf file events ++ out.toList := by
  cases out with
  | none => simp [eventsOf]
  | some e => simp [eventsOf, h e rfl]

theorem eventsOf_other {out : Option CallEvent} (h : ∀ e, out = some e → e.file ≠ file)
    (events : List (Option CallEvent)) :
    eventsOf file (events ++ [out]) = eventsOf file events := by
  cases out with
  | none => simp [eventsOf]
  | some e => simp [eventsOf, h e rfl]

theorem Task.phase_called {op : Op} {pc : CallPc} (hin : pc.inside = true) (fPos : Int) :
    (Task.call op pc).phase fPos = .called op := by
  cases pc <;> first | rfl | cases hin

/-- **A step** is of one file, which goes to its next phase with the event. -/
theorem SharedStep.moves {act : SharedAct} {out : Option CallEvent} {s' : Shared}
    (hs : SharedStep s act out s')
    (hfile : ∀ f op pc, s.task f = .call op pc → op.file = f) :
    ∃ file t fPos, s'.task = Function.update s.task file t ∧
      s'.fPos = Function.update s.fPos file fPos ∧ (∀ e, out = some e → e.file = file) ∧
      ∀ events, InPhase events ((s.task file).phase (s.fPos file)) →
        InPhase (events ++ out.toList) (t.phase fPos) := by
  cases hs with
  | called op hidle =>
      refine ⟨op.file, .call op .start, s.fPos op.file, rfl, by rw [Function.update_eq_self]; rfl,
        by rintro e ⟨⟩; rfl, fun events h => ?_⟩
      rw [hidle] at h
      exact .called op h
  | @effect file op r fPos htask hresult =>
      refine ⟨file, .call op (.returns r), fPos, rfl, rfl, ?_, fun events h => ?_⟩
      · rintro e ⟨⟩
        exact hfile _ _ _ htask
      · rw [htask] at h
        exact .effect r h
  | @takeLock file op pc htask hfree hopen hin =>
      refine ⟨file, .call op pc, s.fPos file, rfl, by rw [Function.update_eq_self]; rfl,
        by rintro e ⟨⟩, fun events h => ?_⟩
      rw [htask] at h
      rw [Task.phase_called hin]
      show InPhase (events ++ []) (.called op)
      rw [List.append_nil]
      exact h
  | @statement file op pc pc' driver fPos htask hin hstatement =>
      refine ⟨file, .call op pc', fPos, rfl, rfl, by rintro e ⟨⟩, fun events h => ?_⟩
      rw [htask, Task.phase_called hin] at h
      rw [Task.phase_called (Op.statement_inside hstatement)]
      simpa using h
  | @unlock file op r htask =>
      refine ⟨file, .call op (.returns r), s.fPos file, rfl, rfl, ?_, fun events h => ?_⟩
      · rintro e ⟨⟩
        exact hfile _ _ _ htask
      · rw [htask] at h
        exact .effect r h
  | @unlockSize file op fileSize r htask hr =>
      refine ⟨file, .call op (.setPos (op.newpos fileSize)), s.fPos file, rfl, rfl, ?_,
        fun events h => ?_⟩
      · rintro e ⟨⟩
        exact hfile _ _ _ htask
      · rw [htask] at h
        subst hr
        exact .effect _ h
  | @setPos file op newpos r fPos htask hr hdata =>
      refine ⟨file, .call op (.returns r), fPos, rfl, rfl, by rintro e ⟨⟩, fun events h => ?_⟩
      have hphase : (Task.call op (.setPos newpos)).phase (s.fPos file) = .done r := by
        obtain ⟨ret, data⟩ := r
        cases hdata
        show Phase.done ⟨(aesdLlseekTo (s.fPos file) newpos).1, []⟩ = _
        rw [hr]
      rw [htask, hphase] at h
      show InPhase (events ++ []) (.done r)
      rwa [List.append_nil]
  | @returned file op r htask =>
      refine ⟨file, .idle, s.fPos file, rfl, by rw [Function.update_eq_self],
        by rintro e ⟨⟩; rfl, fun events h => ?_⟩
      rw [htask] at h
      exact .returned file h

/-- **One step** keeps every file in its phase. -/
theorem SharedStep.phase {act : SharedAct} {out : Option CallEvent} {s' : Shared}
    (hs : SharedStep s act out s')
    (hfile : ∀ f op pc, s.task f = .call op pc → op.file = f)
    {events : List (Option CallEvent)} (f : Nat)
    (h : InPhase (eventsOf f events) ((s.task f).phase (s.fPos f))) :
    InPhase (eventsOf f (events ++ [out])) ((s'.task f).phase (s'.fPos f)) := by
  obtain ⟨file, t, fPos, htask, hpos, he, hmove⟩ := hs.moves hfile
  rw [htask, hpos]
  by_cases hf : f = file
  · subst hf
    rw [Function.update_self, Function.update_self, eventsOf_own he]
    exact hmove _ h
  · rw [Function.update_of_ne hf, Function.update_of_ne hf,
      eventsOf_other fun e heq => by rw [he e heq]; exact Ne.symm hf]
    exact h

end

/-! ## Runs -/

section
variable {limit : Nat} {hl : limit ≤ 2 ^ 56} {fPos : Nat → Int}
  {acts : List SharedAct} {outs : List (Option CallEvent)} {s : Shared}

theorem effects_snoc (outs : List (Option CallEvent)) (op : Op) (r : Reply) :
    effects (outs ++ [some (.effect op r)]) = effects outs ++ [(op, r)] := by
  simp [effects]

theorem effects_other {out : Option CallEvent} (h : ∀ op r, out ≠ some (.effect op r))
    (outs : List (Option CallEvent)) : effects (outs ++ [out]) = effects outs := by
  rcases out with _ | _ | ⟨op, r⟩ | _
  · simp [effects]
  · simp [effects]
  · exact absurd rfl (h op r)
  · simp [effects]

theorem TakesEffect.run {d₀ d d' : Device} {out : Option CallEvent} (h : TakesEffect d out d')
    (hrun : run Device.step d₀ ((effects outs).map Prod.fst)
      = some ((effects outs).map Prod.snd, d)) :
    run Device.step d₀ ((effects (outs ++ [out])).map Prod.fst)
      = some ((effects (outs ++ [out])).map Prod.snd, d') := by
  rcases out with _ | op | ⟨op, r⟩ | ⟨f, r⟩
  · rw [effects_other (by rintro _ _ ⟨⟩), h]
    exact hrun
  · rw [effects_other (by rintro _ _ ⟨⟩), h]
    exact hrun
  · rw [effects_snoc, List.map_append, List.map_append]
    exact run_snoc.mpr ⟨_, d, r, hrun, h, rfl⟩
  · rw [effects_other (by rintro _ _ ⟨⟩), h]
    exact hrun

/-- What the calls that took effect made of the device, in every run. -/
theorem run_represents (h : run Shared.step (.init limit hl fPos) acts = some (outs, s)) :
    (∃ d, run Device.step (.init limit hl fPos) ((effects outs).map Prod.fst)
        = some ((effects outs).map Prod.snd, d) ∧ Represents s d) ∧
      ∀ f, InPhase (eventsOf f outs) ((s.task f).phase (s.fPos f)) := by
  refine run_history (P := fun _ outs s =>
    (∃ d, run Device.step (.init limit hl fPos) ((effects outs).map Prod.fst)
        = some ((effects outs).map Prod.snd, d) ∧ Represents s d) ∧
      ∀ f, InPhase (eventsOf f outs) ((s.task f).phase (s.fPos f))) ?_ ?_ h
  · exact ⟨⟨_, rfl, represents_init limit hl fPos⟩, fun _ => .nil⟩
  · rintro acts outs s act out s' - ⟨⟨d, hrun, hr⟩, hphase⟩ hs
    obtain ⟨a, -, ht, -⟩ := run_tracks hrun
    obtain ⟨d', hr', he⟩ := hr.step ⟨a, ht⟩ hs
    exact ⟨⟨d', he.run hrun, hr'⟩, fun f => (Shared.step_cases hs).phase hr.file f (hphase f)⟩

end

/-- **The file operations are linearizable.** However the statements of the calls
of different files interleave: the calls that took effect are a run of whole
calls, one after the other, with the replies they got; while nobody has the lock
the driver is the one of that run, and so is the position of every file without a
call. And on each file a call takes effect once, between its start and its
return, and returns what its effect says: the order of the calls in that run is
one in which none comes before a call that had returned when it was made. -/
theorem calls_linearize (limit : Nat) (hl : limit ≤ 2 ^ 56) (fPos : Nat → Int)
    {acts : List SharedAct} {outs : List (Option CallEvent)} {s : Shared}
    (h : run Shared.step (.init limit hl fPos) acts = some (outs, s)) :
    (∃ d, run Device.step (.init limit hl fPos) ((effects outs).map Prod.fst)
        = some ((effects outs).map Prod.snd, d) ∧
      (s.lock = none → s.driver = d.driver) ∧
      ∀ f, s.task f = .idle → s.fPos f = d.fPos f) ∧
    ∀ f, InPhase (eventsOf f outs) ((s.task f).phase (s.fPos f)) := by
  obtain ⟨⟨d, hrun, hr⟩, hphase⟩ := run_represents h
  refine ⟨⟨d, hrun, hr.free, fun f hidle => ?_⟩, hphase⟩
  have hpos := hr.pos f (by rw [hidle]; rfl)
  rw [hpos, hidle]
  rfl

/-- A write and a read, statement by statement: the read comes in while the write has
the lock. -/
theorem calls_linearize_write_read :
    let acts : List SharedAct := [.call (.write (.quiet 0 [97, newline] (by decide))), .go 0,
      .call (.read ⟨1, 5, .quiet⟩)] ++ List.replicate 9 (.go 0) ++ [.go 1, .go 0] ++
        List.replicate 5 (.go 1)
    ∃ outs s, run Shared.step (.init 4096 (by decide) fun _ => 0) acts = some (outs, s) ∧
      (effects outs).map Prod.snd = [⟨2, []⟩, ⟨2, [97, newline]⟩] ∧
      ∃ d, run Device.step (.init 4096 (by decide) fun _ => 0) ((effects outs).map Prod.fst)
        = some ([⟨2, []⟩, ⟨2, [97, newline]⟩], d) := by
  intro acts
  have h : (run Shared.step (.init 4096 (by decide) fun _ => 0) acts).map
      (fun p => (effects p.1).map Prod.snd) = some [⟨2, []⟩, ⟨2, [97, newline]⟩] := by
    decide
  obtain ⟨⟨outs, s⟩, hrun, hreplies⟩ := Option.map_eq_some_iff.mp h
  obtain ⟨⟨d, hd, -⟩, -⟩ := calls_linearize 4096 (by decide) (fun _ => 0) hrun
  have hreplies : (effects outs).map Prod.snd = [⟨2, []⟩, ⟨2, [97, newline]⟩] := hreplies
  rw [hreplies] at hd
  exact ⟨outs, s, hrun, hreplies, d, hd⟩

end Aesd.Driver
