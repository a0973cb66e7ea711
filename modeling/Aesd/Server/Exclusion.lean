import Aesd.Server.Traffic
import Aesd.Server.Resources

/-!
# One at a time

Whatever the clients send, a thread whose calls succeed is between its lock and
its unlock exactly when it has the mutex, and a stream on the device is open only
while the thread that opened it is there (`traffic_excludes`).
-/

namespace Aesd.Server

open Aesd.Lib Aesd.Driver

/-- The open streams are the thread's that has the mutex. -/
def StreamsHeld {ι : Type} (w : World ι) : Prop :=
  ∀ file, w.streams file ≠ none →
    ∃ i, w.mutex = some i ∧ (w.threads i).stream = some file

section
variable {ι : Type} {w w' : World ι}

theorem Thread.stream_of_closed {t : Thread} (h : t.pc.streamOpen = false) :
    t.stream = none := by
  rw [Thread.stream, h]
  rfl

theorem Thread.stream_of_open {t : Thread} (h : t.pc.streamOpen = true) :
    t.stream = t.phSocketDataFile := by
  rw [Thread.stream, h]
  rfl

/-- When the thread with the mutex is on no stream, none is open. -/
theorem StreamsHeld.none_open (h : StreamsHeld w) (hm : w.mutex = none ∨
    ∃ i, w.mutex = some i ∧ (w.threads i).pc.streamOpen = false) (file : Nat) :
    w.streams file = none := by
  by_contra hne
  obtain ⟨j, hj, hstream⟩ := h file hne
  rcases hm with hm | ⟨i, hm, hclosed⟩
  · rw [hm] at hj
    cases hj
  · rw [hm] at hj
    cases hj
    rw [Thread.stream_of_closed hclosed] at hstream
    cases hstream

/-- The stream stays with its thread as long as the thread stays on it. -/
theorem StreamsHeld.step_same (h : StreamsHeld w) (hmutex : w'.mutex = w.mutex)
    (hthreads : ∀ j, w.mutex = some j → (w'.threads j).stream = (w.threads j).stream)
    (hstreams : ∀ file, w'.streams file ≠ none → w.streams file ≠ none) : StreamsHeld w' := by
  intro file hfile
  obtain ⟨j, hj, hstream⟩ := h file (hstreams file hfile)
  exact ⟨j, by rw [hmutex, hj], by rw [hthreads j hj, hstream]⟩

end

section
variable {ι : Type} [DecidableEq ι] {chunks : ι → List (List UInt8)} {a₀ a : LogState}
  {w w' w₁ : World ι} {s : Serial ι} {i : ι} {n : Nat} {fill : Nat → UInt8}

/-- Only `fopen` opens a stream. -/
theorem World.answer_streams {call : Call} {r : Resp}
    (h : w.answer i n fill call = some (r, w₁)) (hcall : call ≠ .fopen) {file : Nat}
    (hfile : w₁.streams file ≠ none) : w.streams file ≠ none := by
  have hset : ∀ (f : Nat) (old new : Option Stream), w.streams f = old → old ≠ none →
      (w.setStream f new).streams file ≠ none → w.streams file ≠ none := by
    intro f old new hold hne hnew
    by_cases hf : file = f
    · subst hf
      rw [hold]
      exact hne
    · simpa only [World.setStream, Function.update_of_ne hf] using hnew
  unfold World.answer at h
  cases call with
  | fopen => exact absurd rfl hcall
  | inetNtop =>
      cases h
      exact hfile
  | recv len =>
      dsimp only at h
      split at h <;> cases h <;> exact hfile
  | realloc size =>
      cases h
      exact hfile
  | pthreadMutexLock =>
      dsimp only at h
      split at h <;> cases h
      exact hfile
  | fprintf f text =>
      simp only [Option.bind_eq_bind, Option.bind_eq_some_iff] at h
      obtain ⟨f, -, st, hst, h⟩ := h
      cases h
      exact hset f _ _ hst (by simp) hfile
  | fileno f =>
      simp only [Option.bind_eq_bind, Option.bind_eq_some_iff] at h
      obtain ⟨f, -, h⟩ := h
      cases h
      exact hfile
  | ioctl fd cmd seekto =>
      simp only [Option.bind_eq_bind, Option.bind_eq_some_iff] at h
      obtain ⟨st, hst, p, -, h⟩ := h
      cases h
      exact hset _ _ _ hst (by simp) hfile
  | getline f =>
      simp only [Option.bind_eq_bind, Option.bind_eq_some_iff] at h
      obtain ⟨f, -, st, hst, p, -, h⟩ := h
      cases h
      exact hset f _ _ hst (by simp) hfile
  | send bytes =>
      dsimp only at h
      split at h <;> cases h
      exact hfile
  | fclose f =>
      simp only [Option.bind_eq_bind, Option.bind_eq_some_iff] at h
      obtain ⟨f, -, st, hst, h⟩ := h
      split at h <;> cases h
      exact hset f _ _ hst (by simp) hfile
  | pthreadMutexUnlock =>
      cases h
      exact hfile

/-- **A call of the thread with the mutex.** -/
theorem StreamsHeld.step_inside (h : StreamsHeld w) (hs : Serializes chunks a₀ w a s)
    {call : Call} {r : Resp} {t : Thread} (hm : w.mutex = some i)
    (hstep : (w.threads i).step r = some (call, t))
    (hans : w.answer i n fill call = some (r, w₁)) :
    StreamsHeld (w₁.setThread i t) := by
  have hl := (hs.holder i).mp hm
  have hin := hs.inside i hm
  -- on a stream before and after: nothing is opened
  have hstays : call ≠ .fopen → w₁.mutex = w.mutex →
      t.stream = (w.threads i).stream → StreamsHeld (w₁.setThread i t) := by
    intro hcall hmutex hstream
    refine h.step_same hmutex ?_ fun file => World.answer_streams hans hcall
    intro j hj
    rw [hm] at hj
    cases hj
    rw [World.setThread_self, hstream]
  have hsame : ∀ {u : Thread}, u.phSocketDataFile = (w.threads i).phSocketDataFile →
      u.pc.streamOpen = (w.threads i).pc.streamOpen → u.stream = (w.threads i).stream := by
    intro u hfile hopen
    rw [Thread.stream, Thread.stream, hopen, hfile]
  unfold Within at hin
  cases Thread.step_cases hstep with
  | opened hpc hr =>
      cases hans
      obtain ⟨hfile, -⟩ := Thread.opened_pc hr
      have hnone := h.none_open (.inr ⟨i, hm, by rw [hpc]; rfl⟩)
      intro file hne
      refine ⟨i, hm, ?_⟩
      rw [World.setThread_self, Thread.stream_of_open (Thread.opened_inside hr).1, hfile]
      by_cases hf : file = w.nextFile
      · rw [hf]
      · have hsame : (w.setStream w.nextFile (some .fresh)).streams file = w.streams file :=
          Function.update_of_ne hf _ _
        exact absurd (hsame.trans (hnone file)) hne
  | printed hpc =>
      rw [hpc] at hin
      obtain ⟨-, -, -, file, hfile, hstream⟩ := hin
      have hans' := hans
      simp only [World.answer, hfile, hstream, Option.bind_eq_bind, Option.bind_some] at hans'
      cases hans'
      exact hstays (by simp) rfl (hsame rfl (by rw [hpc]; rfl))
  | number hpc =>
      rw [hpc] at hin
      obtain ⟨-, -, -, file, hfile, -⟩ := hin
      have hans' := hans
      simp only [World.answer, hfile, Option.bind_eq_bind, Option.bind_some] at hans'
      cases hans'
      exact hstays (by simp) rfl (hsame rfl (by rw [hpc]; rfl))
  | @sought fd seekto _ hpc =>
      have hans' := hans
      simp only [World.answer, Option.bind_eq_bind, Option.bind_eq_some_iff] at hans'
      obtain ⟨st, -, p, -, hans'⟩ := hans'
      cases hans'
      exact hstays (by simp) rfl (hsame rfl (by rw [hpc]; rfl))
  | endOfFile hpc =>
      have hans' := hans
      simp only [World.answer, Option.bind_eq_bind, Option.bind_eq_some_iff] at hans'
      obtain ⟨file, -, st, -, ⟨r, st'⟩, -, hans'⟩ := hans'
      cases hans'
      exact hstays (by simp) rfl (hsame rfl (by rw [hpc]; rfl))
  | line hpc =>
      have hans' := hans
      simp only [World.answer, Option.bind_eq_bind, Option.bind_eq_some_iff] at hans'
      obtain ⟨file, -, st, -, ⟨r, st'⟩, -, hans'⟩ := hans'
      cases hans'
      exact hstays (by simp) rfl (hsame rfl (by rw [Thread.sendLoop_inside, hpc]; rfl))
  | notSent hpc =>
      simp only [World.answer] at hans
      split at hans <;> cases hans
  | sent hpc hn =>
      have hans' := hans
      simp only [World.answer] at hans'
      split at hans' <;> cases hans'
      exact hstays (by simp) rfl (hsame rfl (by rw [Thread.sendLoop_inside, hpc]; rfl))
  | fileClosed hpc =>
      -- the stream is gone, and no other was open
      have hans' := hans
      simp only [World.answer, Option.bind_eq_bind, Option.bind_eq_some_iff] at hans'
      obtain ⟨file, hfile, st, -, hans'⟩ := hans'
      split at hans' <;> cases hans'
      intro f hne
      have hne' := World.answer_streams hans (by simp) hne
      obtain ⟨j, hj, hstream⟩ := h f hne'
      rw [hm] at hj
      cases hj
      rw [Thread.stream_of_open (by rw [hpc]; rfl), hfile] at hstream
      cases hstream
      have hgone : (w.setStream file none).streams file = none := Function.update_self _ _ _
      exact absurd hgone hne
  | unlocked hpc =>
      have hnone := h.none_open (.inr ⟨i, hm, by rw [hpc]; rfl⟩)
      intro file hne
      exact absurd (hnone file) (World.answer_streams hans (by simp) hne)
  | notOpened hpc hr => cases hans
  | noAddress hpc | address hpc | ended hpc | received hpc | noMemory hpc | reallocated hpc
  | locked hpc =>
      rw [hpc] at hl
      cases hl

/-- **A call of a thread without the mutex.** -/
theorem StreamsHeld.step_outside (h : StreamsHeld w) (hs : Serializes chunks a₀ w a s)
    {call : Call} {r : Resp} {t : Thread} (hm : w.mutex ≠ some i)
    (hstep : (w.threads i).step r = some (call, t))
    (hans : w.answer i n fill call = some (r, w₁)) :
    StreamsHeld (w₁.setThread i t) := by
  have hl : (w.threads i).pc.locked ≠ true := fun hl => hm ((hs.holder i).mpr hl)
  have hthreads := (World.answer_frame hans).1
  -- the thread that has the mutex is another one
  have hother : call ≠ .fopen → w₁.mutex = w.mutex → StreamsHeld (w₁.setThread i t) := by
    intro hcall hmutex
    refine h.step_same hmutex ?_ fun file => World.answer_streams hans hcall
    intro j hj
    have hji : j ≠ i := by
      rintro rfl
      exact hm hj
    rw [World.setThread_of_ne _ hji, hthreads]
  cases Thread.step_cases hstep with
  | noAddress hpc | noMemory hpc => cases hans
  | address hpc | reallocated hpc =>
      have hans' := hans
      cases hans'
      exact hother (by simp) rfl
  | ended hpc | received hpc =>
      have hans' := hans
      simp only [World.answer] at hans'
      split at hans' <;> cases hans'
      exact hother (by simp) rfl
  | locked hpc =>
      -- the mutex was free, so no stream was open
      have hnone : w.mutex = none := by
        cases hmutex : w.mutex with
        | none => rfl
        | some j =>
            simp only [World.answer, hmutex] at hans
            cases hans
      intro file hfile
      exact absurd (h.none_open (.inl hnone) file) (World.answer_streams hans (by simp) hfile)
  | notOpened hpc | opened hpc | printed hpc | number hpc | sought hpc | endOfFile hpc
  | line hpc | notSent hpc | sent hpc | fileClosed hpc | unlocked hpc =>
      rw [hpc] at hl
      exact absurd rfl hl

/-- **One step** leaves the open streams with the mutex. -/
theorem StreamsHeld.step (h : StreamsHeld w) (hs : Serializes chunks a₀ w a s) {act : Act ι}
    {out : Option (ι × Call)} (hstep : w.step act = some (out, w')) : StreamsHeld w' := by
  -- a stream that reads or writes is open before and after
  have hset : ∀ {i : ι} {file : Nat} {st st' : Stream} {w'' : World ι},
      w.streams file = some st → w''.mutex = w.mutex → w''.threads = w.threads →
      w''.streams = Function.update w.streams file (some st') → StreamsHeld w'' := by
    intro i file st st' w'' hst hmutex hthreads hstreams
    refine h.step_same hmutex (fun j _ => by rw [hthreads]) fun f hf => ?_
    by_cases hfile : f = file
    · subst hfile
      simp [hst]
    · rwa [hstreams, Function.update_of_ne hfile] at hf
  cases act with
  | flush i n env =>
      simp only [World.step, Option.bind_eq_bind, Option.bind_eq_some_iff] at hstep
      obtain ⟨file, -, st, hst, hstep⟩ := hstep
      split at hstep
      case isFalse => cases hstep
      simp only [Option.bind_eq_some_iff] at hstep
      obtain ⟨⟨ret, driver⟩, -, hstep⟩ := hstep
      split at hstep <;> cases hstep
      exact hset (i := i) hst rfl rfl rfl
  | refill i count =>
      simp only [World.step, Option.bind_eq_bind, Option.bind_eq_some_iff] at hstep
      obtain ⟨file, -, st, hst, hstep⟩ := hstep
      split at hstep
      case isFalse => cases hstep
      simp only [Option.bind_eq_some_iff] at hstep
      obtain ⟨⟨ret, data, fPos⟩, -, hstep⟩ := hstep
      cases hstep
      exact hset (i := i) hst rfl rfl rfl
  | call i n fill =>
      obtain ⟨call, r, w₁, t, hthread, hans, rfl, rfl⟩ := World.step_call hstep
      by_cases hm : w.mutex = some i
      · exact h.step_inside hs hm hthread hans
      · exact h.step_outside hs hm hthread hans

/-! ## Runs -/

/-- **Every run** keeps the open streams with the mutex. -/
theorem run_held {driver : DriverState} (h : Tracks driver a₀) {acts : List (Act ι)}
    {outs : List (Option (ι × Call))}
    (hrun : run World.step (.init driver chunks) acts = some (outs, w)) :
    (∃ s a, Serializes chunks a₀ w a s) ∧ StreamsHeld w := by
  refine run_invariant (I := fun w => (∃ s a, Serializes chunks a₀ w a s) ∧ StreamsHeld w)
    ?_ ⟨⟨_, _, serializes_init h chunks⟩, fun file hfile => absurd rfl hfile⟩ hrun
  rintro w act out w' ⟨⟨s, a, ha⟩, hheld⟩ hstep
  obtain ⟨-, -, s', -, -, a', ha'⟩ := ha.step hstep
  exact ⟨⟨s', a', ha'⟩, hheld.step ha hstep⟩

/-- **Mutual exclusion.** Take any reachable device and any number of connections,
sending anything in any chunks. In every state that a run reaches in which the
threads' calls succeed, a thread is between its lock and its unlock exactly when it
has the mutex, so that no two ever are; and a stream on the device is open only if it
is the stream of the thread that has the mutex. -/
theorem traffic_excludes (limit : Nat) (hl : limit ≤ 2 ^ 56) (fPos : Nat → Int)
    {ops : List Op} {rs : List Reply} {d : Device}
    (h : run Device.step (.init limit hl fPos) ops = some (rs, d))
    (chunks : ι → List (List UInt8)) {acts : List (Act ι)} {outs : List (Option (ι × Call))}
    {w : World ι} (hrun : run World.step (.init d.driver chunks) acts = some (outs, w)) :
    (∀ i, (w.threads i).pc.locked = true ↔ w.mutex = some i) ∧
      ∀ file, w.streams file ≠ none →
        ∃ i, w.mutex = some i ∧ (w.threads i).stream = some file := by
  obtain ⟨b, -, hb, -⟩ := run_tracks h
  obtain ⟨⟨s, a, ha⟩, hheld⟩ := run_held hb.state hrun
  exact ⟨fun i => (ha.holder i).symm, hheld⟩

end

/-- The first client's thread has its stream open. -/
theorem traffic_excludes_two_clients : ∃ outs w,
    run World.step (.init (aesdInitModule 4096 (by decide)) twoClients) (twoClientsActs.take 9)
      = some (outs, w) ∧
    (w.threads true).pc.locked = false ∧ (w.threads false).stream = some 0 := by
  have hrun : (run World.step (.init (aesdInitModule 4096 (by decide)) twoClients)
      (twoClientsActs.take 9)).any (fun p => p.2.mutex = some false ∧ (p.2.streams 0).isSome)
      = true := by decide +kernel
  obtain ⟨⟨outs, w⟩, hrun, hp⟩ := (Option.any_eq_true _ _).mp hrun
  obtain ⟨hm, hstream⟩ : w.mutex = some false ∧ (w.streams 0).isSome = true :=
    of_decide_eq_true hp
  have hinit : run Device.step (.init 4096 (by decide) fun _ => 0) []
      = some ([], .init 4096 (by decide) fun _ => 0) := rfl
  obtain ⟨hlocked, hopen⟩ :=
    traffic_excludes 4096 (by decide) (fun _ => 0) hinit twoClients hrun
  refine ⟨outs, w, hrun, ?_, ?_⟩
  · have hnot : ¬ (w.threads true).pc.locked = true := by
      rw [hlocked true, hm]
      simp
    simpa using hnot
  · obtain ⟨i, hi, hi'⟩ := hopen 0 (Option.isSome_iff_ne_none.mp hstream)
    rw [hm] at hi
    cases hi
    exact hi'

end Aesd.Server
