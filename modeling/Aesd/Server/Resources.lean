import Aesd.Server.Interleaving
import Mathlib.Data.List.DropRight

/-!
# The resources of a commit

The stream and the mutex of `service_thread`, whatever its calls return. The
thread checks `pthread_mutex_lock` and `fopen` and logs when one fails, but it
goes on as if neither had: the next call then uses a lock it does not hold, or
the stream `NULL`. No other failure matters, so the rules hold in a run
exactly when these two calls succeed (`respects_resources_iff`).
-/

namespace Aesd.Server

open Aesd.Lib Aesd.Driver

/-! ## The rules -/

/-- Whether a call begins an iteration of the loop. -/
def Call.isRecv : Call → Bool
  | .recv _ => true
  | _ => false

/-- The iteration the thread is in after `trace`: what follows the last
`recv`. -/
def iteration (trace : List (Call × Resp)) : List (Call × Resp) :=
  trace.rtakeWhile fun e => !e.1.isRecv

/-- `fopen` returned `file`. -/
def opens (file : Nat) : Call × Resp → Bool
  | (.fopen, .stream f) => f == file
  | _ => false

/-- `fclose` was called on `file`. -/
def closes (file : Nat) : Call × Resp → Bool
  | (.fclose (some f), _) => f == file
  | _ => false

/-- `pthread_mutex_lock` succeeded. -/
def locks : Call × Resp → Bool
  | (.pthreadMutexLock, .int n) => n == 0
  | _ => false

/-- `pthread_mutex_unlock` was called. -/
def unlocks : Call × Resp → Bool
  | (.pthreadMutexUnlock, _) => true
  | _ => false

/-- `file` was opened and not closed since. -/
def IsOpen (trace : List (Call × Resp)) (file : Nat) : Prop :=
  trace.countP (closes file) < trace.countP (opens file)

/-- The mutex was locked and not unlocked since. -/
def HoldsMutex (trace : List (Call × Resp)) : Prop :=
  trace.countP unlocks < trace.countP locks

/-- Every stream opened was closed once, every successful lock unlocked once. -/
structure Released (trace : List (Call × Resp)) : Prop where
  closed : ∀ file, trace.countP (closes file) = trace.countP (opens file)
  unlocked : trace.countP unlocks = trace.countP locks

/-- The stream a call is applied to. -/
def Call.file : Call → Option (Option Nat)
  | .fprintf file _ | .fileno file | .getline file | .fclose file => some file
  | _ => none

/-- Whether a call accesses the data file. -/
def Call.accessesFile : Call → Bool
  | .fopen | .fprintf _ _ | .fileno _ | .ioctl _ _ _ | .getline _ | .fclose _ => true
  | _ => false

/-- What is asked of a call that comes after `trace` in its iteration. -/
structure Call.Permitted (trace : List (Call × Resp)) (call : Call) : Prop where
  stream : ∀ file, call.file = some file → ∃ f, file = some f ∧ IsOpen trace f
  mutex : call.accessesFile = true → HoldsMutex trace
  unlock : call = .pthreadMutexUnlock → HoldsMutex trace
  recv : call.isRecv = true → Released trace

/-- **The commit section respects its resources**, up to where the thread is:
every call is permitted, and a thread that ended has released everything. -/
structure RespectsResources (trace : List (Call × Resp)) (t : Thread) : Prop where
  permitted : ∀ pre e post, trace = pre ++ e :: post → e.1.Permitted (iteration pre)
  ended : t.pc = .done → Released (iteration trace)

/-- The two failures that are logged and then ignored. -/
def ignoredFailure : Call × Resp → Bool
  | (.pthreadMutexLock, .int n) => n != 0
  | (.fopen, .null) => true
  | _ => false

/-! ## Traces -/

section
variable {trace : List (Call × Resp)} {e : Call × Resp}

theorem iteration_recv (h : e.1.isRecv = true) : iteration (trace ++ [e]) = [] :=
  List.rtakeWhile_concat_neg _ _ _ (by simp [h])

theorem iteration_concat (h : e.1.isRecv = false) :
    iteration (trace ++ [e]) = iteration trace ++ [e] :=
  List.rtakeWhile_concat_pos _ _ _ (by simp [h])

/-- In the iteration so far `stream` is open and nothing else, and the mutex
is held as `mutex` says. -/
structure Holding (trace : List (Call × Resp)) (stream : Option Nat) (mutex : Bool) :
    Prop where
  opened : ∀ file, trace.countP (opens file)
    = trace.countP (closes file) + (if stream = some file then 1 else 0)
  locked : trace.countP locks = trace.countP unlocks + mutex.toNat

variable {stream : Option Nat} {mutex : Bool}

theorem holding_nil : Holding [] none false := ⟨fun _ => rfl, rfl⟩

theorem Holding.released (h : Holding trace none false) : Released trace :=
  ⟨fun file => (h.opened file).symm, h.locked.symm⟩

theorem Holding.isOpen {file : Nat} (h : Holding trace (some file) mutex) :
    IsOpen trace file := by
  have := h.opened file
  rw [if_pos rfl] at this
  rw [IsOpen]
  omega

theorem Holding.holdsMutex (h : Holding trace stream true) : HoldsMutex trace := by
  have := h.locked
  rw [Bool.toNat_true] at this
  rw [HoldsMutex]
  omega

theorem Holding.not_holdsMutex (h : Holding trace stream false) : ¬ HoldsMutex trace := by
  have := h.locked
  rw [Bool.toNat_false] at this
  rw [HoldsMutex]
  omega

theorem Holding.other (h : Holding trace stream mutex) (ho : ∀ file, opens file e = false)
    (hc : ∀ file, closes file e = false) (hl : locks e = false) (hu : unlocks e = false) :
    Holding (trace ++ [e]) stream mutex := by
  refine ⟨fun file => ?_, ?_⟩
  · simp [List.countP_append, ho, hc, h.opened file]
  · simp [List.countP_append, hl, hu, h.locked]

theorem Holding.lock (h : Holding trace stream false) :
    Holding (trace ++ [(.pthreadMutexLock, .int 0)]) stream true := by
  refine ⟨fun file => ?_, ?_⟩
  · simp [List.countP_append, opens, closes, h.opened file]
  · simp [List.countP_append, locks, unlocks, h.locked]

theorem Holding.unlock {r : Resp} (h : Holding trace stream true) :
    Holding (trace ++ [(.pthreadMutexUnlock, r)]) stream false := by
  refine ⟨fun file => ?_, ?_⟩
  · simp [List.countP_append, opens, closes, h.opened file]
  · simp [List.countP_append, locks, unlocks, h.locked]

theorem Holding.fopen {file : Nat} (h : Holding trace none mutex) :
    Holding (trace ++ [(.fopen, .stream file)]) (some file) mutex := by
  refine ⟨fun f => ?_, ?_⟩
  · have := h.opened f
    by_cases hf : file = f <;> simp_all [List.countP_append, opens, closes]
  · simp [List.countP_append, locks, unlocks, h.locked]

theorem Holding.fclose {file : Nat} {r : Resp} (h : Holding trace (some file) mutex) :
    Holding (trace ++ [(.fclose (some file), r)]) none mutex := by
  refine ⟨fun f => ?_, ?_⟩
  · have := h.opened f
    by_cases hf : file = f <;> simp_all [List.countP_append, opens, closes]
  · simp [List.countP_append, locks, unlocks, h.locked]

end

/-- What holds of every call and what came before it, of one call more. -/
theorem splits_concat {α : Type*} {P : List α → α → Prop} {l : List α} {a : α} :
    (∀ pre e post, l ++ [a] = pre ++ e :: post → P pre e) ↔
      (∀ pre e post, l = pre ++ e :: post → P pre e) ∧ P l a := by
  constructor
  · intro h
    refine ⟨fun pre e post hl => h pre e (post ++ [a]) ?_, h l a [] rfl⟩
    rw [hl, List.append_assoc, List.cons_append]
  · rintro ⟨h, ha⟩ pre e post hl
    cases post using List.reverseRecOn with
    | nil =>
        obtain ⟨rfl, hea⟩ := List.append_inj' hl rfl
        cases hea
        exact ha
    | append_singleton post b =>
        rw [← List.cons_append, ← List.append_assoc] at hl
        obtain ⟨rfl, -⟩ := List.append_inj' hl rfl
        exact h pre e post rfl

/-! ## The thread in order -/

/-- The calls made between `fopen` and `fclose`, with `fclose` itself. -/
def Pc.streamOpen : Pc → Bool
  | .fprintf _ | .fileno _ | .ioctl _ _ | .getline | .send _ _ | .fclose => true
  | _ => false

/-- The stream that the thread has to close. -/
def Thread.stream (t : Thread) : Option Nat :=
  if t.pc.streamOpen then t.phSocketDataFile else none

/-- The thread has what its place in the loop needs, and nothing else. -/
structure InOrder (trace : List (Call × Resp)) (t : Thread) : Prop where
  holding : Holding (iteration trace) t.stream t.pc.locked
  opened : t.pc.streamOpen = true → ∃ file, t.phSocketDataFile = some file

section
variable {trace : List (Call × Resp)} {e : Call × Resp} {t t' t'' : Thread} {r r' : Resp}
  {call call' : Call}

theorem Pc.locked_of_streamOpen {pc : Pc} (h : pc.streamOpen = true) :
    pc.locked = true := by
  cases pc <;> simp_all [Pc.streamOpen, Pc.locked]

theorem Thread.received_outside {chunk : List UInt8} (h : t.received chunk = some t') :
    t'.pc.streamOpen = false ∧ t'.pc.locked = false := by
  obtain ⟨_, _, hpc⟩ := Thread.received_pc h
  rw [hpc]
  exact ⟨rfl, rfl⟩

theorem Thread.reallocated_outside {bContainsNewline bIsFirstMalloc : Bool}
    {fill : Nat → UInt8}
    (h : t.reallocated bContainsNewline bIsFirstMalloc fill = some t') :
    t'.pc.streamOpen = false ∧ t'.pc.locked = false := by
  obtain ⟨-, hpc | hpc⟩ := Thread.reallocated_pc h <;> rw [hpc] <;> exact ⟨rfl, rfl⟩

theorem Thread.opened_inside {file : Option Nat} (h : t.opened file = some t') :
    t'.pc.streamOpen = true ∧ t'.call.bind Call.file = some file := by
  obtain ⟨hfile, ⟨_, hpc⟩ | ⟨_, hpc⟩⟩ := Thread.opened_pc h <;>
    rw [Thread.call, hpc, hfile] <;> exact ⟨rfl, rfl⟩

theorem Thread.sendLoop_inside (t : Thread) (line : List UInt8) (total : Nat) :
    (t.sendLoop line total).pc.streamOpen = true := by
  rcases t.sendLoop_pc line total with hpc | hpc <;> rw [hpc] <;> rfl

theorem InOrder.outside (h : InOrder trace t) {pc : Pc} (hpc : t.pc = pc)
    (hopen : pc.streamOpen = false) : Holding (iteration trace) none pc.locked := by
  have := h.holding
  rwa [Thread.stream, hpc, hopen, if_neg (by decide)] at this

theorem InOrder.inside (h : InOrder trace t) {pc : Pc} (hpc : t.pc = pc)
    (hopen : pc.streamOpen = true) :
    ∃ file, t.phSocketDataFile = some file ∧
      Holding (iteration trace) (some file) true := by
  obtain ⟨file, hfile⟩ := h.opened (hpc ▸ hopen)
  have := h.holding
  rw [Thread.stream, hpc, hopen, if_pos rfl, hfile, Pc.locked_of_streamOpen hopen] at this
  exact ⟨file, hfile, this⟩

theorem inOrder_outside (hpc : t.pc.streamOpen = false)
    (h : Holding (iteration trace) none t.pc.locked) : InOrder trace t := by
  refine ⟨?_, fun hp => absurd (hpc.symm.trans hp) (by decide)⟩
  rwa [Thread.stream, hpc, if_neg (by decide)]

theorem inOrder_inside {file : Nat} (hpc : t.pc.streamOpen = true)
    (hfile : t.phSocketDataFile = some file)
    (h : Holding (iteration trace) (some file) true) : InOrder trace t := by
  refine ⟨?_, fun _ => ⟨file, hfile⟩⟩
  rwa [Thread.stream, hpc, if_pos rfl, hfile, Pc.locked_of_streamOpen hpc]

theorem inOrder_init : InOrder [] Thread.init :=
  inOrder_outside rfl holding_nil

theorem InOrder.other (h : InOrder trace t) (hr : e.1.isRecv = false)
    (ho : ∀ file, opens file e = false) (hc : ∀ file, closes file e = false)
    (hl : locks e = false) (hu : unlocks e = false)
    (hopen : t'.pc.streamOpen = t.pc.streamOpen) (hlocked : t'.pc.locked = t.pc.locked)
    (hfile : t'.phSocketDataFile = t.phSocketDataFile) : InOrder (trace ++ [e]) t' := by
  refine ⟨?_, fun hpc => ?_⟩
  · rw [iteration_concat hr, Thread.stream, hopen, hlocked, hfile]
    exact h.holding.other ho hc hl hu
  · rw [hfile]
    exact h.opened (hopen.symm.trans hpc)

/-- **Every call of a thread in order is permitted.** -/
theorem InOrder.permitted (h : InOrder trace t) (hc : t.call = some call) :
    call.Permitted (iteration trace) := by
  unfold Thread.call at hc
  cases hpc : t.pc <;> rw [hpc] at hc <;> cases hc
  case inetNtop | realloc | mutexLock =>
    exact ⟨nofun, nofun, nofun, nofun⟩
  case recv =>
    have hout := h.outside hpc rfl
    exact ⟨nofun, nofun, nofun, fun _ => hout.released⟩
  case fopen =>
    have hout := h.outside hpc rfl
    exact ⟨nofun, fun _ => hout.holdsMutex, nofun, nofun⟩
  case mutexUnlock =>
    have hout := h.outside hpc rfl
    exact ⟨nofun, nofun, fun _ => hout.holdsMutex, nofun⟩
  case fprintf | fileno | getline | fclose =>
    obtain ⟨file, hfile, hin⟩ := h.inside hpc rfl
    refine ⟨?_, fun _ => hin.holdsMutex, nofun, nofun⟩
    rintro _ ⟨⟩
    exact ⟨file, hfile, hin.isOpen⟩
  case ioctl | send =>
    obtain ⟨file, -, hin⟩ := h.inside hpc rfl
    exact ⟨nofun, fun _ => hin.holdsMutex, nofun, nofun⟩

/-- **A step keeps the order**, unless it is one of the ignored failures. -/
theorem InOrder.step (h : InOrder trace t) (hs : t.step r = some (call, t'))
    (hf : ignoredFailure (call, r) = false) : InOrder (trace ++ [(call, r)]) t' := by
  cases Thread.step_cases hs with
  | noAddress hpc | address hpc | noMemory hpc | printed hpc | number hpc | sought hpc
  | endOfFile hpc | notSent hpc =>
      refine h.other rfl (fun _ => rfl) (fun _ => rfl) rfl rfl ?_ ?_ rfl <;>
        rw [hpc] <;> rfl
  | line hpc | sent hpc hn =>
      have hopen := t.sendLoop_inside
      refine h.other rfl (fun _ => rfl) (fun _ => rfl) rfl rfl ?_ ?_ rfl
      · rw [hopen, hpc]
        rfl
      · rw [Pc.locked_of_streamOpen (hopen _ _), hpc]
        rfl
  | ended hpc hn =>
      refine inOrder_outside rfl ?_
      rw [iteration_recv rfl]
      exact holding_nil
  | received hpc hlen hr =>
      obtain ⟨hopen, hlocked⟩ := Thread.received_outside hr
      refine inOrder_outside hopen ?_
      rw [iteration_recv rfl, hlocked]
      exact holding_nil
  | reallocated hpc hr =>
      obtain ⟨hopen, hlocked⟩ := Thread.reallocated_outside hr
      refine h.other rfl (fun _ => rfl) (fun _ => rfl) rfl rfl ?_ ?_
        (Thread.reallocated_pc hr).1
      · rw [hopen, hpc]
        rfl
      · rw [hlocked, hpc]
        rfl
  | @locked n hpc =>
      have hout := h.outside hpc rfl
      obtain rfl : n = 0 := by simpa [ignoredFailure] using hf
      refine inOrder_outside rfl ?_
      rw [iteration_concat rfl]
      exact hout.lock
  | notOpened hpc hr => cases hf
  | opened hpc hr =>
      have hout := h.outside hpc rfl
      refine inOrder_inside (Thread.opened_inside hr).1 (Thread.opened_pc hr).1 ?_
      rw [iteration_concat rfl]
      exact hout.fopen
  | fileClosed hpc =>
      obtain ⟨file, hfile, hin⟩ := h.inside hpc rfl
      refine inOrder_outside rfl ?_
      rw [iteration_concat rfl, hfile]
      exact hin.fclose
  | unlocked hpc =>
      have hout := h.outside hpc rfl
      refine inOrder_outside rfl ?_
      rw [iteration_concat rfl]
      exact hout.unlock

/-- A thread that ended has released everything. -/
theorem InOrder.ended (h : InOrder trace t) (hd : t.pc = .done) :
    Released (iteration trace) :=
  (h.outside hd rfl).released

theorem ignoredFailure_not_done (hf : ignoredFailure (call, r) = true)
    (hs : t.step r = some (call, t')) : t'.pc ≠ .done := by
  cases Thread.step_cases hs with
  | locked hpc => simp
  | notOpened hpc hr =>
      obtain ⟨-, ⟨_, hpc'⟩ | ⟨_, hpc'⟩⟩ := Thread.opened_pc hr <;> simp [hpc']
  | _ => cases hf

/-- **After an ignored failure the next call is not permitted**: it is `fopen`
without the mutex, or a call on the stream `NULL`. -/
theorem InOrder.not_permitted (h : InOrder trace t) (hs : t.step r = some (call, t'))
    (hf : ignoredFailure (call, r) = true) (hs' : t'.step r' = some (call', t'')) :
    ¬ call'.Permitted (iteration (trace ++ [(call, r)])) := by
  intro hp
  have hcall := (Thread.step_eq_some.mp hs').1
  cases Thread.step_cases hs with
  | @locked n hpc =>
      cases hcall
      have hout := h.outside hpc rfl
      have hn : locks (.pthreadMutexLock, .int n) = false := by
        simpa [locks, ignoredFailure] using hf
      have hmutex := hp.mutex rfl
      rw [iteration_concat rfl] at hmutex
      exact (hout.other (fun _ => rfl) (fun _ => rfl) hn rfl).not_holdsMutex hmutex
  | notOpened hpc hr =>
      have hfile := (Thread.opened_inside hr).2
      rw [hcall, Option.bind_some] at hfile
      obtain ⟨f, hnone, -⟩ := hp.stream none hfile
      cases hnone
  | _ => cases hf

end

/-! ## Every run -/

section
variable {resps : List Resp} {calls : List Call} {t : Thread}

/-- Without an ignored failure before its last call, a run respects its
resources; without any, the thread is in order after it. -/
theorem run_inOrder (h : run Thread.step .init resps = some (calls, t)) :
    ((∀ e ∈ (calls.zip resps).dropLast, ignoredFailure e = false) →
      RespectsResources (calls.zip resps) t) ∧
    ((∀ e ∈ calls.zip resps, ignoredFailure e = false) → InOrder (calls.zip resps) t) := by
  refine run_history (P := fun resps calls t =>
    ((∀ e ∈ (calls.zip resps).dropLast, ignoredFailure e = false) →
      RespectsResources (calls.zip resps) t) ∧
    ((∀ e ∈ calls.zip resps, ignoredFailure e = false) → InOrder (calls.zip resps) t))
    ⟨fun _ => ⟨fun pre e post heq => ?_, fun hd => absurd hd (by decide)⟩,
      fun _ => inOrder_init⟩ ?_ h
  · exact absurd heq (by simp)
  intro resps calls t r call t' hrun ih hs
  rw [List.zip_append (run_length hrun), List.zip_cons_cons, List.zip_nil_right,
    List.dropLast_concat]
  constructor
  · intro hok
    have hin := ih.2 hok
    have hrespects := ih.1 fun e he => hok e ((List.dropLast_sublist _).subset he)
    refine ⟨splits_concat.mpr ⟨hrespects.permitted,
      hin.permitted (Thread.step_eq_some.mp hs).1⟩, fun hd => ?_⟩
    exact (hin.step hs (Bool.eq_false_iff.mpr fun hf =>
      ignoredFailure_not_done hf hs hd)).ended hd
  · intro hok
    refine (ih.2 fun e he => hok e (List.mem_append_left _ he)).step hs ?_
    exact hok _ (by simp)

/-- A run that respects its resources had no ignored failure before its last
call. -/
theorem run_respects (h : run Thread.step .init resps = some (calls, t))
    (hp : ∀ pre e post, calls.zip resps = pre ++ e :: post →
      e.1.Permitted (iteration pre)) :
    ∀ e ∈ (calls.zip resps).dropLast, ignoredFailure e = false := by
  induction resps using List.reverseRecOn generalizing calls t with
  | nil =>
      cases h
      exact nofun
  | append_singleton resps r ih =>
      obtain ⟨calls, u, call, hrun, hs, rfl⟩ := run_snoc.mp h
      rw [List.zip_append (run_length hrun), List.zip_cons_cons, List.zip_nil_right] at hp ⊢
      obtain ⟨hp, hlast⟩ := splits_concat.mp hp
      have hbefore := ih hrun hp
      rw [List.dropLast_concat]
      rcases List.eq_nil_or_concat' resps with rfl | ⟨resps, r', rfl⟩
      · simp
      · obtain ⟨calls, v, call', hrun', hs', rfl⟩ := run_snoc.mp hrun
        rw [List.zip_append (run_length hrun'), List.zip_cons_cons, List.zip_nil_right]
          at hlast hbefore ⊢
        rw [List.dropLast_concat] at hbefore
        intro e he
        rcases List.mem_append.mp he with he | he
        · exact hbefore e he
        · obtain rfl := List.mem_singleton.mp he
          refine Bool.eq_false_iff.mpr fun hf => ?_
          exact ((run_inOrder hrun').2 hbefore).not_permitted hs' hf hs hlast

/-- **Exactly when the commit section respects its resources.** In every run
of the thread, whatever its calls return, the stream and the mutex are used
as they should be if and only if no call was made after a
`pthread_mutex_lock` or an `fopen` that failed. -/
theorem respects_resources_iff (h : run Thread.step .init resps = some (calls, t)) :
    RespectsResources (calls.zip resps) t ↔
      ∀ e ∈ (calls.zip resps).dropLast, ignoredFailure e = false :=
  ⟨fun hr => run_respects h hr.permitted, (run_inOrder h).1⟩

/-- What a connection's calls return when its one packet is committed and only
a `send` fails. -/
def sendFails : List Resp :=
  [.nonNull, .bytes [97, 10], .memory fun _ => 0, .int 0, .stream 3, .int 2,
    .bytes [97, 10], .int (-1), .int 0, .int 0, .int 0]

theorem respects_resources_iff_sendFails :
    ∃ calls t, run Thread.step .init sendFails = some (calls, t) ∧
      RespectsResources (calls.zip sendFails) t :=
  ⟨_, _, rfl, (respects_resources_iff
    (show run Thread.step .init sendFails = some (_, _) from rfl)).mpr (by decide)⟩

/-- What the calls return when the data file cannot be opened. -/
def noFile : List Resp :=
  [.nonNull, .bytes [97, 10], .memory fun _ => 0, .int 0, .null, .int (-1)]

/-- Then `fprintf` is called on `NULL`. -/
theorem noFile_not_respected :
    ¬ ∀ (resps : List Resp) (calls : List Call) (t : Thread),
      run Thread.step .init resps = some (calls, t) →
      RespectsResources (calls.zip resps) t := by
  intro hall
  have h : (run Thread.step .init noFile).map Prod.fst = some [.inetNtop, .recv 99,
      .realloc 3, .pthreadMutexLock, .fopen, .fprintf none [97, 10]] := by decide
  obtain ⟨⟨calls, t⟩, hrun, rfl⟩ := Option.map_eq_some_iff.mp h
  have hfopen := run_respects hrun (hall _ _ _ hrun).permitted (.fopen, .null)
    (by simp [noFile])
  cases hfopen

end

end Aesd.Server
