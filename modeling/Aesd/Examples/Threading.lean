import Aesd.Lib.CInt
import Aesd.Lib.Machine
import Mathlib.Data.List.Nodup
import Mathlib.Logic.Function.Basic

/-!
# Threads with a mutex

`start_thread_obtaining_mutex` and `threadfunc` of `examples/threading`, for any
number of threads and mutexes. A step is one start, the return of one call of a
thread, or a join, after which the joiner frees the `thread_data` it got. Each
call may fail, and a thread goes on after a failed one. What the joiner reads is
whether all calls of its thread succeeded (`threads_report`).
-/

namespace Aesd.Examples

open Aesd.Lib

/-! ## The machine -/

/-- `struct thread_data`. `thread_complete_success` is `none` until it is stored. -/
structure ThreadData where
  pMutex : Nat
  waitToObtainMs : Int
  waitToReleaseMs : Int
  threadCompleteSuccess : Option Bool
  deriving DecidableEq, Repr

/-- A call of `threadfunc`. -/
inductive FuncCall where
  | usleep (usec : Nat)
  | pthreadMutexLock (mutex : Nat)
  | pthreadMutexUnlock (mutex : Nat)
  deriving DecidableEq, Repr

/-- Where a thread is: the call it waits for, or its end. -/
inductive FuncPc where
  | obtain
  | lock
  | release
  | unlock
  | returned
  | joined
  deriving DecidableEq, Repr

/-- A thread in `threadfunc`. -/
structure FuncThread where
  pThreadData : Nat
  pc : FuncPc
  bStatus : Bool
  deriving DecidableEq, Repr

/-- The blocks that `malloc` returned, the threads that hold the mutexes, and the
threads by the order of their starts. -/
structure Threads where
  blocks : Nat → Option ThreadData
  owner : Nat → Option Nat
  threads : List FuncThread

def Threads.init : Threads := ⟨fun _ => none, fun _ => none, []⟩

/-- What happens: a start, with the results of `malloc` and `pthread_create`; a call
of a thread returns; a thread is joined. -/
inductive ThreadsAct where
  | start (mutex : Nat) (waitToObtainMs waitToReleaseMs : Int) (block : Option Nat)
      (create : Int)
  | call (tid : Nat) (ret : Int)
  | join (tid : Nat)

/-- What is seen of a step: the result of the start, the call and its result, or the
`thread_complete_success` that the joiner reads. -/
inductive ThreadsEvent where
  | started (result : Bool)
  | called (tid : Nat) (call : FuncCall) (ret : Int)
  | joined (tid : Nat) (success : Option Bool)
  deriving DecidableEq, Repr

/-- `start_thread_obtaining_mutex`. -/
def Threads.startThreadObtainingMutex (s : Threads) (mutex : Nat)
    (waitToObtainMs waitToReleaseMs : Int) (block : Option Nat) (create : Int) :
    Option (Bool × Threads) :=
  match block with
  | none => some (false, s)
  | some p =>
      if (s.blocks p).isSome then none
      else
        let blocks := Function.update s.blocks p
          (some ⟨mutex, waitToObtainMs, waitToReleaseMs, none⟩)
        if create = 0 then
          some (true, { s with blocks, threads := s.threads ++ [⟨p, .obtain, true⟩] })
        else some (false, { s with blocks })

/-- The next call of a thread. -/
def FuncPc.call (d : ThreadData) : FuncPc → Option FuncCall
  -- the waits are called milliseconds, and `usleep` takes microseconds
  | .obtain => some (.usleep (toU32 d.waitToObtainMs))
  | .lock => some (.pthreadMutexLock d.pMutex)
  | .release => some (.usleep (toU32 d.waitToReleaseMs))
  | .unlock => some (.pthreadMutexUnlock d.pMutex)
  | .returned | .joined => none

def FuncPc.next : FuncPc → FuncPc
  | .obtain => .lock
  | .lock => .release
  | .release => .unlock
  | .unlock => .returned
  | .returned | .joined => .joined

/-- Whether `threadfunc` takes the result for a success. -/
def FuncCall.succeeded : FuncCall × Int → Bool
  | (.usleep _, ret) => ret ≠ -1
  | (_, ret) => ret = 0

/-- What a call of thread `tid` does to the mutexes. The lock is given to a thread
while it is free; the unlock is undefined for a thread that does not hold it, unless
it fails. -/
def Threads.mutexes (s : Threads) (tid : Nat) (ret : Int) :
    FuncCall → Option (Nat → Option Nat)
  | .usleep _ => if ret = 0 ∨ ret = -1 then some s.owner else none
  | .pthreadMutexLock m =>
      if ret ≠ 0 then some s.owner
      else if s.owner m = none then some (Function.update s.owner m (some tid))
      else none
  | .pthreadMutexUnlock m =>
      if ret ≠ 0 then some s.owner
      else if s.owner m = some tid then some (Function.update s.owner m none)
      else none

/-- `threadfunc`, from the return of one call to the next. -/
def Threads.threadfunc (s : Threads) (tid : Nat) (ret : Int) :
    Option (FuncCall × Threads) := do
  let t ← s.threads[tid]?
  let d ← s.blocks t.pThreadData
  let call ← t.pc.call d
  let owner ← s.mutexes tid ret call
  let bStatus := t.bStatus && FuncCall.succeeded (call, ret)
  let threadCompleteSuccess :=
    if t.pc = .unlock then some bStatus else d.threadCompleteSuccess
  return (call, {
    blocks := Function.update s.blocks t.pThreadData (some { d with threadCompleteSuccess })
    owner
    threads := s.threads.set tid { t with pc := t.pc.next, bStatus } })

/-- The joiner reads and frees the `thread_data` that `threadfunc` returned. -/
def Threads.join (s : Threads) (tid : Nat) : Option (Option Bool × Threads) := do
  let t ← s.threads[tid]?
  let d ← s.blocks t.pThreadData
  if t.pc = .returned then
    return (d.threadCompleteSuccess, { s with
      blocks := Function.update s.blocks t.pThreadData none
      threads := s.threads.set tid { t with pc := .joined } })
  else none

def Threads.step (s : Threads) : ThreadsAct → Option (ThreadsEvent × Threads)
  | .start mutex o r block create => do
      let (result, s) ← s.startThreadObtainingMutex mutex o r block create
      return (.started result, s)
  | .call tid ret => do
      let (call, s) ← s.threadfunc tid ret
      return (.called tid call ret, s)
  | .join tid => do
      let (success, s) ← s.join tid
      return (.joined tid success, s)

/-! ## What a run shows -/

/-- The calls of a thread, with their results. -/
def callsOf (tid : Nat) (outs : List ThreadsEvent) : List (FuncCall × Int) :=
  outs.filterMap fun
    | .called i call ret => if i = tid then some (call, ret) else none
    | _ => none

/-- The arguments of a start that succeeded. -/
def startArgs : ThreadsAct × ThreadsEvent → Option ThreadData
  | (.start mutex o r _ _, .started true) => some ⟨mutex, o, r, none⟩
  | _ => none

/-- The arguments of the threads, in the order of their starts. -/
def startsOf (acts : List ThreadsAct) (outs : List ThreadsEvent) : List ThreadData :=
  (acts.zip outs).filterMap startArgs

/-- A start that got its block but no thread. -/
def losesBlock : ThreadsAct × ThreadsEvent → Bool
  | (.start _ _ _ (some _) _, .started false) => true
  | _ => false

/-- The calls `threadfunc` makes. -/
def ThreadData.calls (d : ThreadData) : List FuncCall :=
  [.usleep (toU32 d.waitToObtainMs), .pthreadMutexLock d.pMutex,
    .usleep (toU32 d.waitToReleaseMs), .pthreadMutexUnlock d.pMutex]

/-- How many of them a thread has made. -/
def FuncPc.made : FuncPc → Nat
  | .obtain => 0
  | .lock => 1
  | .release => 2
  | .unlock => 3
  | .returned | .joined => 4

/-! ## What a step keeps -/

/-- Thread `tid` was not joined, and its `thread_data` is block `p`. -/
def Threads.Has (s : Threads) (tid p : Nat) : Prop :=
  ∃ t, s.threads[tid]? = some t ∧ t.pc ≠ .joined ∧ t.pThreadData = p

/-- The threads that were started with `starts` made `calls`, and nobody has the blocks
`lost`. -/
structure Running (starts : List ThreadData) (calls : Nat → List (FuncCall × Int))
    (lost : List Nat) (s : Threads) : Prop where
  count : starts.length = s.threads.length
  quiet : ∀ tid, s.threads.length ≤ tid → calls tid = []
  made : ∀ (tid : Nat) (t : FuncThread) (d : ThreadData), s.threads[tid]? = some t →
    starts[tid]? = some d →
    (calls tid).map Prod.fst = d.calls.take t.pc.made ∧
      t.bStatus = (calls tid).all FuncCall.succeeded
  block : ∀ (tid : Nat) (t : FuncThread) (d : ThreadData), s.threads[tid]? = some t →
    starts[tid]? = some d → t.pc ≠ .joined → s.blocks t.pThreadData = some { d with
      threadCompleteSuccess := if t.pc = .returned then some t.bStatus else none }
  apart : ∀ tid tid' p, s.Has tid p → s.Has tid' p → tid = tid'
  owner : ∀ m tid, s.owner m = some tid ↔ (.pthreadMutexLock m, 0) ∈ calls tid ∧
    (.pthreadMutexUnlock m, 0) ∉ calls tid
  nodup : lost.Nodup
  blocks : ∀ p, (s.blocks p).isSome ↔ p ∈ lost ∨ ∃ tid, s.Has tid p
  nobody : ∀ p ∈ lost, ∀ tid, ¬ s.Has tid p

theorem running_init : Running [] (fun _ => []) [] .init where
  count := rfl
  quiet := fun _ _ => rfl
  made := fun tid t d ht => (by cases ht)
  block := fun tid t d ht => (by cases ht)
  apart := fun tid tid' p ⟨t, ht, _⟩ => (by cases ht)
  owner := fun m tid => ⟨fun h => (by cases h), fun h => (by cases h.1)⟩
  nodup := List.nodup_nil
  blocks := fun p => ⟨fun h => (by cases h), fun h => by
    rcases h with h | ⟨tid, t, ht, -⟩
    · cases h
    · cases ht⟩
  nobody := fun p hp => (by cases hp)

section
variable {starts : List ThreadData} {calls : Nat → List (FuncCall × Int)} {lost : List Nat}
  {s s' : Threads} {tid : Nat}

theorem set_cases {threads : List FuncThread} {j : Nat} {t u : FuncThread}
    (hlt : tid < threads.length) (hu : (threads.set tid t)[j]? = some u) :
    j = tid ∧ u = t ∨ j ≠ tid ∧ threads[j]? = some u := by
  by_cases hj : j = tid
  · subst hj
    rw [List.getElem?_set_self hlt] at hu
    exact .inl ⟨rfl, (Option.some.inj hu).symm⟩
  · rw [List.getElem?_set_ne (Ne.symm hj)] at hu
    exact .inr ⟨hj, hu⟩

theorem Running.not_has (h : Running starts calls lost s) {p : Nat} (hp : s.blocks p = none) :
    p ∉ lost ∧ ∀ tid, ¬ s.Has tid p := by
  have hno := (h.blocks p).not
  rw [hp] at hno
  simpa [not_or] using hno

/-- **A start that fails** in `pthread_create` loses its block. -/
theorem Running.lose (h : Running starts calls lost s) {p : Nat} (hp : s.blocks p = none)
    (d : ThreadData) : Running starts calls (p :: lost)
      { s with blocks := Function.update s.blocks p (some d) } := by
  obtain ⟨hlost, hhas⟩ := h.not_has hp
  constructor
  case count => exact h.count
  case quiet => exact h.quiet
  case made => exact h.made
  case apart => exact h.apart
  case owner => exact h.owner
  case nodup => exact List.nodup_cons.mpr ⟨hlost, h.nodup⟩
  case block =>
    intro tid t d' ht hd hpc
    have hother : t.pThreadData ≠ p := fun heq => hhas tid ⟨t, ht, hpc, heq⟩
    show Function.update s.blocks p (some d) t.pThreadData = _
    rw [Function.update_of_ne hother]
    exact h.block tid t d' ht hd hpc
  case blocks =>
    intro q
    show (Function.update s.blocks p (some d) q).isSome ↔ q ∈ p :: lost ∨ ∃ tid, s.Has tid q
    by_cases hq : q = p
    · subst hq
      simp
    · rw [Function.update_of_ne hq, h.blocks q, List.mem_cons]
      simp [hq]
  case nobody =>
    intro q hq tid
    rcases List.mem_cons.mp hq with rfl | hq
    · exact hhas tid
    · exact h.nobody q hq tid

/-- **A start that succeeds** adds a thread. -/
theorem Running.started (h : Running starts calls lost s) {p : Nat} (hp : s.blocks p = none)
    {d : ThreadData} (hd : d.threadCompleteSuccess = none) :
    Running (starts ++ [d]) calls lost
      { s with
        blocks := Function.update s.blocks p (some d)
        threads := s.threads ++ [⟨p, .obtain, true⟩] } := by
  obtain ⟨hlost, hhas⟩ := h.not_has hp
  -- a thread of the new state was there before, or is the new one
  have hthreads : ∀ {tid : Nat} {t : FuncThread},
      (s.threads ++ [⟨p, .obtain, true⟩])[tid]? = some t →
      s.threads[tid]? = some t ∧ tid < s.threads.length ∨
        tid = s.threads.length ∧ t = ⟨p, .obtain, true⟩ := by
    intro tid t ht
    rw [List.getElem?_append] at ht
    split at ht
    · rename_i hlt
      exact .inl ⟨ht, hlt⟩
    · rename_i hlt
      rw [List.getElem?_singleton] at ht
      split at ht <;> cases ht
      exact .inr ⟨by omega, rfl⟩
  have hstarts : ∀ {tid : Nat}, tid < s.threads.length →
      (starts ++ [d])[tid]? = starts[tid]? := by
    intro tid hlt
    rw [← h.count] at hlt
    exact List.getElem?_append_left hlt
  have hnew : (starts ++ [d])[s.threads.length]? = some d := by
    rw [← h.count, List.getElem?_concat_length]
  have hhas' : ∀ tid q, Threads.Has { s with
        blocks := Function.update s.blocks p (some d)
        threads := s.threads ++ [⟨p, .obtain, true⟩] } tid q ↔
      s.Has tid q ∨ tid = s.threads.length ∧ q = p := by
    intro tid q
    constructor
    · rintro ⟨t, ht, hpc, rfl⟩
      rcases hthreads ht with ⟨ht, -⟩ | ⟨rfl, rfl⟩
      · exact .inl ⟨t, ht, hpc, rfl⟩
      · exact .inr ⟨rfl, rfl⟩
    · rintro (⟨t, ht, hpc, rfl⟩ | ⟨rfl, rfl⟩)
      · refine ⟨t, ?_, hpc, rfl⟩
        show (s.threads ++ [⟨p, .obtain, true⟩])[tid]? = some t
        rw [List.getElem?_append_left (List.getElem?_eq_some_iff.mp ht).1, ht]
      · exact ⟨_, List.getElem?_concat_length, by simp, rfl⟩
  constructor
  case count => simp [h.count]
  case quiet =>
    intro tid hle
    apply h.quiet
    have hle : (s.threads ++ [(⟨p, .obtain, true⟩ : FuncThread)]).length ≤ tid := hle
    rw [List.length_append] at hle
    omega
  case made =>
    intro tid t d' ht hd'
    rcases hthreads ht with ⟨ht, hlt⟩ | ⟨rfl, rfl⟩
    · exact h.made tid t d' ht (hstarts hlt ▸ hd')
    · rw [h.quiet _ (Nat.le_refl _)]
      exact ⟨rfl, rfl⟩
  case block =>
    intro tid t d' ht hd' hpc
    show Function.update s.blocks p (some d) t.pThreadData = _
    rcases hthreads ht with ⟨ht, hlt⟩ | ⟨rfl, rfl⟩
    · have hother : t.pThreadData ≠ p := fun heq => hhas tid ⟨t, ht, hpc, heq⟩
      rw [Function.update_of_ne hother]
      exact h.block tid t d' ht (hstarts hlt ▸ hd') hpc
    · rw [hnew] at hd'
      cases hd'
      rw [Function.update_self, ← hd]
      rfl
  case apart =>
    intro tid tid' q hq hq'
    rcases (hhas' tid q).mp hq with hold | ⟨rfl, rfl⟩
    · rcases (hhas' tid' q).mp hq' with hold' | ⟨rfl, rfl⟩
      · exact h.apart tid tid' q hold hold'
      · exact absurd hold (hhas tid)
    · rcases (hhas' tid' q).mp hq' with hold' | ⟨rfl, -⟩
      · exact absurd hold' (hhas tid')
      · rfl
  case owner => exact h.owner
  case nodup => exact h.nodup
  case blocks =>
    intro q
    show (Function.update s.blocks p (some d) q).isSome ↔ _
    by_cases hq : q = p
    · subst hq
      rw [Function.update_self]
      exact ⟨fun _ => .inr ⟨_, (hhas' _ q).mpr (.inr ⟨rfl, rfl⟩)⟩, fun _ => rfl⟩
    · rw [Function.update_of_ne hq, h.blocks q]
      apply or_congr_right
      apply exists_congr
      intro tid
      rw [hhas']
      simp [hq]
  case nobody =>
    intro q hq tid hhas₁
    rcases (hhas' tid q).mp hhas₁ with hold | ⟨-, rfl⟩
    · exact h.nobody q hq tid hold
    · exact hlost hq

/-- A thread that makes a call has its block, with its arguments in it. -/
theorem Running.of_call (h : Running starts calls lost s) {t : FuncThread} {d : ThreadData}
    {call : FuncCall} (ht : s.threads[tid]? = some t) (hd : s.blocks t.pThreadData = some d)
    (hcall : t.pc.call d = some call) :
    ∃ d₀, starts[tid]? = some d₀ ∧ d = { d₀ with threadCompleteSuccess := none } ∧
      t.pc ≠ .joined ∧ t.pc.next ≠ .joined ∧
      d₀.calls.take t.pc.next.made = d₀.calls.take t.pc.made ++ [call] := by
  obtain ⟨hlt, -⟩ := List.getElem?_eq_some_iff.mp ht
  rw [← h.count] at hlt
  have hstart := List.getElem?_eq_getElem hlt
  have hblock := h.block tid t _ ht hstart
  cases hpc : t.pc with
  | returned | joined =>
      rw [hpc] at hcall
      cases hcall
  | obtain | lock | release | unlock =>
      rw [hpc] at hcall hblock
      have hd₀ := hd.symm.trans (hblock (by simp))
      cases hd₀
      cases hcall
      exact ⟨_, hstart, rfl, by simp, by simp [FuncPc.next], rfl⟩

/-- **The mutexes** follow the calls. -/
theorem Running.mutexes (h : Running starts calls lost s) {ret : Int} {call : FuncCall}
    {owner : Nat → Option Nat} (hs : s.mutexes tid ret call = some owner)
    (hlock : ∀ m, call = .pthreadMutexLock m → (.pthreadMutexUnlock m, 0) ∉ calls tid)
    {calls' : Nat → List (FuncCall × Int)}
    (hcalls : ∀ j, calls' j = calls j ++ if tid = j then [(call, ret)] else []) (m j : Nat) :
    owner m = some j ↔ (.pthreadMutexLock m, 0) ∈ calls' j ∧
      (.pthreadMutexUnlock m, 0) ∉ calls' j := by
  have hold := h.owner m j
  rw [hcalls]
  -- a call that is neither changes nothing
  have hquiet : owner = s.owner → (call, ret) ≠ (.pthreadMutexLock m, 0) →
      (call, ret) ≠ (.pthreadMutexUnlock m, 0) → (owner m = some j ↔
        (.pthreadMutexLock m, 0) ∈ calls j ++ (if tid = j then [(call, ret)] else []) ∧
        (.pthreadMutexUnlock m, 0) ∉ calls j ++ (if tid = j then [(call, ret)] else [])) := by
    rintro rfl hl hu
    rw [hold]
    split
    · simp [List.mem_append, Ne.symm hl, Ne.symm hu]
    · rw [List.append_nil]
  cases call with
  | usleep usec =>
      simp only [Threads.mutexes] at hs
      split at hs <;> cases hs
      exact hquiet rfl (by simp) (by simp)
  | pthreadMutexLock m' =>
      simp only [Threads.mutexes] at hs
      split at hs
      · rename_i hret
        cases hs
        exact hquiet rfl (by simp [hret]) (by simp)
      · rename_i hret
        simp only [ne_eq, Decidable.not_not] at hret
        subst hret
        split at hs <;> cases hs
        rename_i hfree
        by_cases hm : m = m'
        · subst hm
          rw [hfree] at hold
          rw [Function.update_self]
          by_cases hj : tid = j
          · subst hj
            simp [hlock m rfl]
          · rw [if_neg hj, List.append_nil, ← hold]
            simp [hj]
        · rw [Function.update_of_ne hm, hold]
          split
          · simp [List.mem_append, hm]
          · rw [List.append_nil]
  | pthreadMutexUnlock m' =>
      simp only [Threads.mutexes] at hs
      split at hs
      · rename_i hret
        cases hs
        exact hquiet rfl (by simp) (by simp [hret])
      · rename_i hret
        simp only [ne_eq, Decidable.not_not] at hret
        subst hret
        split at hs <;> cases hs
        rename_i hholds
        by_cases hm : m = m'
        · subst hm
          rw [hholds] at hold
          rw [Function.update_self]
          by_cases hj : tid = j
          · subst hj
            simp
          · rw [if_neg hj, List.append_nil, ← hold]
            simp [hj]
        · rw [Function.update_of_ne hm, hold]
          split
          · simp [List.mem_append, hm]
          · rw [List.append_nil]

/-- **A call of a thread returns.** -/
theorem Running.call (h : Running starts calls lost s) {ret : Int} {call : FuncCall}
    (hs : s.threadfunc tid ret = some (call, s'))
    {calls' : Nat → List (FuncCall × Int)}
    (hcalls : ∀ j, calls' j = calls j ++ if tid = j then [(call, ret)] else []) :
    Running starts calls' lost s' := by
  simp only [Threads.threadfunc, Option.bind_eq_bind, Option.bind_eq_some_iff] at hs
  obtain ⟨t, ht, d, hd, call', hcall, owner, howner, hs⟩ := hs
  cases hs
  obtain ⟨d₀, hstart, rfl, hpc, hnext, htake⟩ := h.of_call ht hd hcall
  obtain ⟨hmade, hstatus⟩ := h.made tid t d₀ ht hstart
  obtain ⟨hlt, -⟩ := List.getElem?_eq_some_iff.mp ht
  have hself : calls' tid = calls tid ++ [(call, ret)] := by rw [hcalls, if_pos rfl]
  have hother : ∀ j, j ≠ tid → calls' j = calls j := by
    intro j hj
    rw [hcalls, if_neg (Ne.symm hj), List.append_nil]
  have hhas' : ∀ {owner' : Nat → Option Nat} {blocks' : Nat → Option ThreadData} {b : Bool}
      (j q : Nat), Threads.Has ⟨blocks', owner',
        s.threads.set tid { t with pc := t.pc.next, bStatus := b }⟩ j q ↔ s.Has j q := by
    intro owner' blocks' b j q
    unfold Threads.Has
    dsimp only
    by_cases hj : j = tid
    · subst hj
      rw [List.getElem?_set_self hlt, ht]
      simp [hpc, hnext]
    · rw [List.getElem?_set_ne (Ne.symm hj)]
  have hstatus' : (t.bStatus && FuncCall.succeeded (call, ret))
      = (calls' tid).all FuncCall.succeeded := by
    rw [hself, List.all_append, hstatus]
    simp
  constructor
  case count => simp [h.count]
  case quiet =>
    intro j hj
    have hj : (s.threads.set tid _).length ≤ j := hj
    rw [List.length_set] at hj
    rw [hother j (by omega), h.quiet j hj]
  case made =>
    intro j u d' hu hd'
    rcases set_cases hlt hu with ⟨rfl, rfl⟩ | ⟨hj, hu⟩
    · rw [hstart] at hd'
      cases hd'
      refine ⟨?_, hstatus'⟩
      rw [hself, List.map_append, hmade]
      exact htake.symm
    · rw [hother j hj]
      exact h.made j u d' hu hd'
  case block =>
    intro j u d' hu hd' hpc'
    show Function.update s.blocks t.pThreadData _ u.pThreadData = _
    rcases set_cases hlt hu with ⟨rfl, rfl⟩ | ⟨hj, hu⟩
    · rw [hstart] at hd'
      cases hd'
      show Function.update s.blocks t.pThreadData _ t.pThreadData = _
      rw [Function.update_self]
      cases hp : t.pc <;> simp_all [FuncPc.next, FuncPc.call]
    · have hne : u.pThreadData ≠ t.pThreadData := fun heq =>
        hj (h.apart j tid _ ⟨u, hu, hpc', heq⟩ ⟨t, ht, hpc, rfl⟩)
      rw [Function.update_of_ne hne]
      exact h.block j u d' hu hd' hpc'
  case apart =>
    intro j j' q hq hq'
    exact h.apart j j' q ((hhas' j q).mp hq) ((hhas' j' q).mp hq')
  case owner =>
    refine h.mutexes howner ?_ hcalls
    rintro m rfl hmem
    -- a thread that is at the lock made no unlock
    have hp : t.pc = .lock := by
      cases hp : t.pc <;> rw [hp] at hcall <;> first | rfl | cases hcall
    have hfst := List.mem_map_of_mem (f := Prod.fst) hmem
    rw [hmade, hp] at hfst
    simp [ThreadData.calls, FuncPc.made] at hfst
  case nodup => exact h.nodup
  case blocks =>
    intro q
    refine Iff.trans ?_ (or_congr_right (exists_congr fun j => (hhas' j q).symm))
    rw [← h.blocks q]
    show (Function.update s.blocks t.pThreadData _ q).isSome ↔ _
    by_cases hq : q = t.pThreadData
    · subst hq
      rw [Function.update_self, hd]
      simp
    · rw [Function.update_of_ne hq]
  case nobody =>
    intro q hq j hj
    exact h.nobody q hq j ((hhas' j q).mp hj)

/-- **A join** reads whether all calls of the thread succeeded, and frees its block. -/
theorem Running.join (h : Running starts calls lost s) {success : Option Bool}
    (hs : s.join tid = some (success, s')) :
    Running starts calls lost s' ∧ success = some ((calls tid).all FuncCall.succeeded) ∧
      (∃ t, s'.threads[tid]? = some t ∧ t.pc = .joined) ∧
      ∀ j, j ≠ tid → s'.threads[j]? = s.threads[j]? := by
  simp only [Threads.join, Option.bind_eq_bind, Option.bind_eq_some_iff] at hs
  obtain ⟨t, ht, d, hd, hs⟩ := hs
  split at hs <;> cases hs
  rename_i hpc
  obtain ⟨hlt, -⟩ := List.getElem?_eq_some_iff.mp ht
  obtain ⟨d₀, hstart⟩ : ∃ d₀, starts[tid]? = some d₀ :=
    ⟨_, List.getElem?_eq_getElem (h.count ▸ hlt)⟩
  have hblock := h.block tid t d₀ ht hstart (by rw [hpc]; simp)
  rw [hd, if_pos hpc, (h.made tid t _ ht hstart).2] at hblock
  have hhas : s.Has tid t.pThreadData := ⟨t, ht, by rw [hpc]; simp, rfl⟩
  have hhas' : ∀ j q, Threads.Has { s with
        blocks := Function.update s.blocks t.pThreadData none
        threads := s.threads.set tid { t with pc := .joined } } j q ↔ j ≠ tid ∧ s.Has j q := by
    intro j q
    constructor
    · rintro ⟨u, hu, hpc', rfl⟩
      rcases set_cases hlt hu with ⟨rfl, rfl⟩ | ⟨hj, hu⟩
      · exact absurd rfl hpc'
      · exact ⟨hj, u, hu, hpc', rfl⟩
    · rintro ⟨hj, u, hu, hpc', rfl⟩
      exact ⟨u, (List.getElem?_set_ne (Ne.symm hj)).trans hu, hpc', rfl⟩
  refine ⟨?_, ?_, ⟨_, List.getElem?_set_self hlt, rfl⟩,
    fun j hj => List.getElem?_set_ne (Ne.symm hj)⟩
  · constructor
    case count => simp [h.count]
    case quiet =>
      intro j hj
      have hj : (s.threads.set tid _).length ≤ j := hj
      rw [List.length_set] at hj
      exact h.quiet j hj
    case made =>
      intro j u d' hu hd'
      rcases set_cases hlt hu with ⟨rfl, rfl⟩ | ⟨hj, hu⟩
      · have hmade := h.made j t d' ht hd'
        rw [hpc] at hmade
        exact hmade
      · exact h.made j u d' hu hd'
    case block =>
      intro j u d' hu hd' hpc'
      rcases set_cases hlt hu with ⟨rfl, rfl⟩ | ⟨hj, hu⟩
      · exact absurd rfl hpc'
      · have hne : u.pThreadData ≠ t.pThreadData := fun heq =>
          hj (h.apart j tid _ ⟨u, hu, hpc', heq⟩ hhas)
        show Function.update s.blocks t.pThreadData none u.pThreadData = _
        rw [Function.update_of_ne hne]
        exact h.block j u d' hu hd' hpc'
    case apart =>
      intro j j' q hq hq'
      exact h.apart j j' q ((hhas' j q).mp hq).2 ((hhas' j' q).mp hq').2
    case owner => exact h.owner
    case nodup => exact h.nodup
    case blocks =>
      intro q
      refine Iff.trans ?_ (or_congr_right (exists_congr fun j => (hhas' j q).symm))
      show (Function.update s.blocks t.pThreadData none q).isSome ↔ _
      by_cases hq : q = t.pThreadData
      · subst hq
        rw [Function.update_self]
        refine ⟨fun hnone => (by cases hnone), ?_⟩
        rintro (hlost | ⟨j, hj, hhas₁⟩)
        · exact absurd hhas (h.nobody _ hlost tid)
        · exact absurd (h.apart j tid _ hhas₁ hhas) hj
      · rw [Function.update_of_ne hq, h.blocks q]
        apply or_congr_right
        constructor
        · rintro ⟨j, hj⟩
          refine ⟨j, ?_, hj⟩
          rintro rfl
          obtain ⟨u, hu, -, rfl⟩ := hj
          rw [ht] at hu
          cases hu
          exact hq rfl
        · rintro ⟨j, -, hj⟩
          exact ⟨j, hj⟩
    case nobody =>
      intro q hq j hj
      exact h.nobody q hq j ((hhas' j q).mp hj).2
  · rw [Option.some.inj hblock]

end

/-! ## Runs -/

section
variable {acts : List ThreadsAct} {outs : List ThreadsEvent} {s s' : Threads}

theorem callsOf_append (tid : Nat) (outs outs' : List ThreadsEvent) :
    callsOf tid (outs ++ outs') = callsOf tid outs ++ callsOf tid outs' :=
  List.filterMap_append ..

/-- What a run leads to: the threads, and what the joiners read. -/
structure Reports (acts : List ThreadsAct) (outs : List ThreadsEvent) (s : Threads) :
    Prop where
  running : ∃ lost, Running (startsOf acts outs) (fun tid => callsOf tid outs) lost s ∧
    lost.length = (acts.zip outs).countP losesBlock
  joined : ∀ tid success, .joined tid success ∈ outs →
    success = some ((callsOf tid outs).all FuncCall.succeeded) ∧
      ∃ t, s.threads[tid]? = some t ∧ t.pc = .joined

/-- A call is of a thread that was not joined, and moves no other. -/
theorem Threads.threadfunc_threads {tid : Nat} {ret : Int} {call : FuncCall}
    (hs : s.threadfunc tid ret = some (call, s')) :
    (∀ t, s.threads[tid]? = some t → t.pc ≠ .joined) ∧
      ∀ j, j ≠ tid → s'.threads[j]? = s.threads[j]? := by
  simp only [Threads.threadfunc, Option.bind_eq_bind, Option.bind_eq_some_iff] at hs
  obtain ⟨t, ht, d, -, call', hcall, owner, -, hs⟩ := hs
  cases hs
  refine ⟨fun t' ht' hpc => ?_, fun j hj => List.getElem?_set_ne (Ne.symm hj)⟩
  rw [ht] at ht'
  cases ht'
  rw [hpc] at hcall
  cases hcall

/-- What a start does: nothing, or a block goes to a new thread or is lost. -/
theorem Threads.start_cases {mutex : Nat} {o r : Int} {block : Option Nat} {create : Int}
    {result : Bool}
    (hs : s.startThreadObtainingMutex mutex o r block create = some (result, s')) :
    block = none ∧ result = false ∧ s' = s ∨
      ∃ p, block = some p ∧ s.blocks p = none ∧
        (result = true ∧ s' = { s with
            blocks := Function.update s.blocks p (some ⟨mutex, o, r, none⟩)
            threads := s.threads ++ [⟨p, .obtain, true⟩] } ∨
          result = false ∧ s' = { s with
            blocks := Function.update s.blocks p (some ⟨mutex, o, r, none⟩) }) := by
  cases block with
  | none =>
      cases hs
      exact .inl ⟨rfl, rfl, rfl⟩
  | some p =>
      simp only [Threads.startThreadObtainingMutex] at hs
      split at hs
      · cases hs
      · rename_i hp
        refine .inr ⟨p, rfl, by simpa using hp, ?_⟩
        split at hs <;> cases hs
        · exact .inl ⟨rfl, rfl⟩
        · exact .inr ⟨rfl, rfl⟩

theorem startsOf_append {outs : List ThreadsEvent} (hlen : acts.length = outs.length)
    (act : ThreadsAct) (out : ThreadsEvent) :
    startsOf (acts ++ [act]) (outs ++ [out])
      = startsOf acts outs ++ (startArgs (act, out)).toList := by
  rw [startsOf, List.zip_append hlen, List.filterMap_append, startsOf]
  cases hargs : startArgs (act, out) <;> simp [hargs]

/-- What is not a start that succeeded adds no thread. -/
theorem startsOf_quiet {outs : List ThreadsEvent} (hlen : acts.length = outs.length)
    {act : ThreadsAct} {out : ThreadsEvent} (hargs : startArgs (act, out) = none) :
    startsOf (acts ++ [act]) (outs ++ [out]) = startsOf acts outs := by
  rw [startsOf_append hlen, hargs, Option.toList_none, List.append_nil]

theorem countP_losesBlock {outs : List ThreadsEvent} (hlen : acts.length = outs.length)
    (act : ThreadsAct) (out : ThreadsEvent) :
    ((acts ++ [act]).zip (outs ++ [out])).countP losesBlock
      = (acts.zip outs).countP losesBlock + if losesBlock (act, out) then 1 else 0 := by
  rw [List.zip_append hlen, List.countP_append]
  simp

/-- A step that makes no call and is no join changes no thread's calls. -/
theorem callsOf_quiet {out : ThreadsEvent} (hout : ∀ j, callsOf j [out] = []) (tid : Nat) :
    callsOf tid (outs ++ [out]) = callsOf tid outs := by
  rw [callsOf_append, hout, List.append_nil]

/-- What the joiners read stays as long as their threads make no call and are not
moved, in a step that is no join. -/
theorem Reports.keeps (h : Reports acts outs s) {out : ThreadsEvent}
    (hout : ∀ tid success, out ≠ .joined tid success)
    (hcalls : ∀ (tid : Nat) (t : FuncThread), s.threads[tid]? = some t → t.pc = .joined →
      callsOf tid (outs ++ [out]) = callsOf tid outs ∧ s'.threads[tid]? = some t)
    (tid : Nat) (success : Option Bool) (hmem : .joined tid success ∈ outs ++ [out]) :
    success = some ((callsOf tid (outs ++ [out])).all FuncCall.succeeded) ∧
      ∃ t, s'.threads[tid]? = some t ∧ t.pc = .joined := by
  rcases List.mem_append.mp hmem with hmem | hmem
  · obtain ⟨hsuccess, t, ht, hpc⟩ := h.joined tid success hmem
    obtain ⟨hsame, ht'⟩ := hcalls tid t ht hpc
    exact ⟨by rw [hsame, hsuccess], t, ht', hpc⟩
  · exact absurd (List.mem_singleton.mp hmem).symm (hout tid success)

theorem Reports.start (h : Reports acts outs s) (hlen : acts.length = outs.length)
    {mutex : Nat} {o r : Int} {block : Option Nat} {create : Int} {result : Bool}
    (hs : s.startThreadObtainingMutex mutex o r block create = some (result, s')) :
    Reports (acts ++ [.start mutex o r block create]) (outs ++ [.started result]) s' := by
  obtain ⟨lost, hr, hlost⟩ := h.running
  have hcalls : ∀ tid, callsOf tid (outs ++ [.started result]) = callsOf tid outs :=
    callsOf_quiet fun _ => rfl
  constructor
  case running =>
    rw [countP_losesBlock hlen, ← hlost]
    simp only [hcalls]
    rcases Threads.start_cases hs with ⟨rfl, rfl, rfl⟩ | ⟨p, rfl, hp, ⟨rfl, rfl⟩ | ⟨rfl, rfl⟩⟩
    · rw [startsOf_quiet hlen rfl]
      exact ⟨lost, hr, rfl⟩
    · rw [startsOf_append hlen]
      exact ⟨lost, hr.started hp rfl, rfl⟩
    · rw [startsOf_quiet hlen rfl]
      exact ⟨p :: lost, hr.lose hp _, rfl⟩
  case joined =>
    refine h.keeps (by simp) fun tid t ht _ => ⟨hcalls tid, ?_⟩
    rcases Threads.start_cases hs with ⟨-, -, rfl⟩ | ⟨p, -, -, ⟨-, rfl⟩ | ⟨-, rfl⟩⟩
    · exact ht
    · exact (List.getElem?_append_left (List.getElem?_eq_some_iff.mp ht).1).trans ht
    · exact ht

theorem Reports.call (h : Reports acts outs s) (hlen : acts.length = outs.length) {tid : Nat}
    {ret : Int} {call : FuncCall} (hs : s.threadfunc tid ret = some (call, s')) :
    Reports (acts ++ [.call tid ret]) (outs ++ [.called tid call ret]) s' := by
  obtain ⟨lost, hr, hlost⟩ := h.running
  have hcalls : ∀ j, callsOf j (outs ++ [.called tid call ret])
      = callsOf j outs ++ if tid = j then [(call, ret)] else [] := by
    intro j
    rw [callsOf_append]
    by_cases hj : tid = j
    · simp [callsOf, hj]
    · simp [callsOf, hj]
  obtain ⟨hlive, hsame⟩ := Threads.threadfunc_threads hs
  constructor
  case running =>
    rw [startsOf_quiet hlen rfl, countP_losesBlock hlen, ← hlost]
    exact ⟨lost, hr.call hs hcalls, rfl⟩
  case joined =>
    refine h.keeps (by simp) fun j t ht hpc => ?_
    have hj : j ≠ tid := by
      rintro rfl
      exact hlive t ht hpc
    rw [hcalls, if_neg (Ne.symm hj), List.append_nil, hsame j hj]
    exact ⟨rfl, ht⟩

theorem Reports.join (h : Reports acts outs s) (hlen : acts.length = outs.length) {tid : Nat}
    {success : Option Bool} (hs : s.join tid = some (success, s')) :
    Reports (acts ++ [.join tid]) (outs ++ [.joined tid success]) s' := by
  obtain ⟨lost, hr, hlost⟩ := h.running
  have hcalls : ∀ j, callsOf j (outs ++ [.joined tid success]) = callsOf j outs :=
    callsOf_quiet fun _ => rfl
  obtain ⟨hr', hsuccess, ht, hsame⟩ := hr.join hs
  constructor
  case running =>
    rw [startsOf_quiet hlen rfl, countP_losesBlock hlen, ← hlost]
    simp only [hcalls]
    exact ⟨lost, hr', rfl⟩
  case joined =>
    intro j success' hmem
    rw [hcalls]
    rcases List.mem_append.mp hmem with hold | hnew
    · obtain ⟨hsuccess', t, ht', hpc⟩ := h.joined j success' hold
      by_cases hj : j = tid
      · subst hj
        exact ⟨hsuccess', ht⟩
      · exact ⟨hsuccess', t, by rw [hsame j hj, ht'], hpc⟩
    · cases List.mem_singleton.mp hnew
      exact ⟨hsuccess, ht⟩

theorem run_reports (h : run Threads.step .init acts = some (outs, s)) :
    Reports acts outs s := by
  refine run_history (P := Reports) ⟨⟨[], running_init, rfl⟩, fun _ _ hmem => (by cases hmem)⟩
    ?_ h
  intro acts outs s act out s' hrun hreports hs
  have hlen : acts.length = outs.length := (run_length hrun).symm
  cases act with
  | start mutex o r block create =>
      simp only [Threads.step, Option.bind_eq_bind, Option.bind_eq_some_iff] at hs
      obtain ⟨⟨result, s₁⟩, hs, hout⟩ := hs
      cases hout
      exact hreports.start hlen hs
  | call tid ret =>
      simp only [Threads.step, Option.bind_eq_bind, Option.bind_eq_some_iff] at hs
      obtain ⟨⟨call, s₁⟩, hs, hout⟩ := hs
      cases hout
      exact hreports.call hlen hs
  | join tid =>
      simp only [Threads.step, Option.bind_eq_bind, Option.bind_eq_some_iff] at hs
      obtain ⟨⟨success, s₁⟩, hs, hout⟩ := hs
      cases hout
      exact hreports.join hlen hs

/-- **The threads and what they report.** In every run of starts, calls and joins, of any
number of threads on any mutexes, with any results: a thread holds a mutex exactly
when its lock of it succeeded and its unlock did not yet, so that no two hold one;
each thread makes the four calls of `threadfunc` with the arguments of its own start;
what a joiner reads is whether all four succeeded; and the blocks that are not free
are those of the threads that were not joined, and one for each start whose
`pthread_create` failed. -/
theorem threads_report (h : run Threads.step .init acts = some (outs, s)) :
    (∀ m tid, s.owner m = some tid ↔ (.pthreadMutexLock m, 0) ∈ callsOf tid outs ∧
      (.pthreadMutexUnlock m, 0) ∉ callsOf tid outs) ∧
    (∀ tid t, s.threads[tid]? = some t → ∃ d, (startsOf acts outs)[tid]? = some d ∧
      (callsOf tid outs).map Prod.fst = d.calls.take t.pc.made) ∧
    (∀ tid success, .joined tid success ∈ outs →
      ∃ d, (startsOf acts outs)[tid]? = some d ∧ (callsOf tid outs).map Prod.fst = d.calls ∧
        success = some ((callsOf tid outs).all FuncCall.succeeded)) ∧
    ∃ lost : List Nat, lost.Nodup ∧ lost.length = (acts.zip outs).countP losesBlock ∧
      ∀ p, (s.blocks p).isSome ↔ p ∈ lost ∨ ∃ tid, s.Has tid p := by
  obtain ⟨⟨lost, hr, hlost⟩, hjoined⟩ := run_reports h
  have hthread : ∀ (tid : Nat) (t : FuncThread), s.threads[tid]? = some t →
      ∃ d, (startsOf acts outs)[tid]? = some d ∧
        (callsOf tid outs).map Prod.fst = d.calls.take t.pc.made := by
    intro tid t ht
    have hlt : tid < (startsOf acts outs).length := by
      rw [hr.count]
      exact (List.getElem?_eq_some_iff.mp ht).1
    have hd := List.getElem?_eq_getElem hlt
    exact ⟨_, hd, (hr.made tid t _ ht hd).1⟩
  refine ⟨hr.owner, hthread, fun tid success hmem => ?_, lost, hr.nodup, hlost, hr.blocks⟩
  obtain ⟨hsuccess, t, ht, hpc⟩ := hjoined tid success hmem
  obtain ⟨d, hd, hmade⟩ := hthread tid t ht
  rw [hpc] at hmade
  exact ⟨d, hd, hmade, hsuccess⟩

end

/-- Two threads on a mutex, the second with an interrupted `usleep`, and a start that
gets no thread. -/
theorem threads_report_two :
    let acts : List ThreadsAct := [.start 7 1 2 (some 0) 0, .start 7 0 0 (some 1) 0,
      .start 7 0 0 (some 2) 11, .call 0 0, .call 1 (-1), .call 0 0, .call 0 0, .call 0 0,
      .call 1 0, .join 0, .call 1 0, .call 1 0, .join 1]
    ∃ outs s, run Threads.step .init acts = some (outs, s) ∧
      (callsOf 0 outs).all FuncCall.succeeded = true ∧
      (callsOf 1 outs).all FuncCall.succeeded = false ∧
      ∃ lost : List Nat, lost.length = 1 ∧
        ∀ p, (s.blocks p).isSome ↔ p ∈ lost ∨ ∃ tid, s.Has tid p := by
  intro acts
  have h : (run Threads.step .init acts).map (fun p => (decide (.joined 0 (some true) ∈ p.1),
      decide (.joined 1 (some false) ∈ p.1), (acts.zip p.1).countP losesBlock))
      = some (true, true, 1) := by
    decide
  obtain ⟨⟨outs, s⟩, hrun, hout⟩ := Option.map_eq_some_iff.mp h
  simp only [Prod.mk.injEq, decide_eq_true_eq] at hout
  obtain ⟨hfirst, hsecond, hcount⟩ := hout
  obtain ⟨-, -, hjoined, lost, -, hlost, hblocks⟩ := threads_report hrun
  obtain ⟨-, -, -, htrue⟩ := hjoined 0 _ hfirst
  obtain ⟨-, -, -, hfalse⟩ := hjoined 1 _ hsecond
  exact ⟨outs, s, hrun, (Option.some.inj htrue).symm, (Option.some.inj hfalse).symm, lost,
    hlost.trans hcount, hblocks⟩

end Aesd.Examples
