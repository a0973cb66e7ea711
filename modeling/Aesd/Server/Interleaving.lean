import Aesd.Server.Commit

/-!
# Interleaving

The invariant of the system, for connections that send one packet each. The
threads that got the mutex did so in some order; the device's log is that of
their packets in that order, and each was sent the reply to its own
(`run_consistent`). A thread outside the critical section touches nothing but
its own connection, and only the thread inside touches the device.
-/

namespace Aesd.Server

open Aesd.Lib Aesd.Driver

/-! ## Threads and the mutex -/

/-- `s` is the stream a thread has open. -/
def Opened (t : Thread) (streams : Nat → Option Stream) (s : Stream) : Prop :=
  ∃ file, t.phSocketDataFile = some file ∧ streams file = some s

theorem Opened.eq {t : Thread} {streams : Nat → Option Stream} {s s' : Stream}
    (h : Opened t streams s) (h' : Opened t streams s') : s = s' := by
  obtain ⟨file, hfile, hs⟩ := h
  obtain ⟨file', hfile', hs'⟩ := h'
  rw [hfile] at hfile'
  cases hfile'
  rw [hs] at hs'
  cases hs'
  rfl

/-- A thread that has yet to commit its packet. -/
def Waiting (t : Thread) (inbox : List (List UInt8)) : Prop :=
  match t.pc with
  | .inetNtop | .realloc _ _ | .mutexLock => True
  | .recv => inbox ≠ []
  | _ => False

/-- A thread that has, and has released the mutex. -/
def Ended (t : Thread) (inbox : List (List UInt8)) : Prop :=
  t.pc = .recv ∧ inbox = [] ∨ t.pc = .done

/-- The thread with the mutex: it got it with the log at `log₀`, now the log
is `log`. -/
def Inside (p : Packet) (log₀ log : CommandLog) (t : Thread)
    (streams : Nat → Option Stream) (outbox : List UInt8) : Prop :=
  match t.pc with
  | .fopen => log = log₀ ∧ outbox = []
  | .fprintf text => p.action = .write text ∧ log = log₀ ∧ outbox = [] ∧
      Opened t streams .fresh
  | .fileno seekto => p.action = .ioctl seekto ∧ log = log₀ ∧ outbox = [] ∧
      Opened t streams .fresh
  | .ioctl fd seekto => p.action = .ioctl seekto ∧ log = log₀ ∧ outbox = [] ∧
      ∃ file : Nat, fd = file ∧ t.phSocketDataFile = some file ∧
        streams file = some .fresh
  | .getline => ∃ s, Opened t streams s ∧ Serving p log₀ log s (outbox ++ s.inp)
  | .send line total => total < line.length ∧ line.length ≤ log.contents.length ∧
      log = commit log₀ p.action ∧
      ∃ s fill, Opened t streams s ∧
        Reading log (startPos log₀ fill p.action) s (outbox ++ line.drop total ++ s.inp)
  | .fclose => log = commit log₀ p.action ∧ (∃ fill, outbox = reply log₀ fill p.action) ∧
      ∃ s, Opened t streams s ∧ s.out = []
  | .mutexUnlock => log = commit log₀ p.action ∧ ∃ fill, outbox = reply log₀ fill p.action
  | _ => False

/-- The calls made with the mutex held. -/
def Pc.locked : Pc → Bool
  | .fopen | .fprintf _ | .fileno _ | .ioctl _ _ | .getline | .send _ _ | .fclose
  | .mutexUnlock => true
  | _ => false

section
variable {t : Thread} {inbox : List (List UInt8)} {p : Packet} {log₀ log : CommandLog}
  {streams : Nat → Option Stream} {outbox : List UInt8}

theorem Waiting.locked (h : Waiting t inbox) : t.pc.locked = false := by
  unfold Waiting at h
  cases hpc : t.pc <;> simp_all [Pc.locked]

theorem Ended.locked (h : Ended t inbox) : t.pc.locked = false := by
  rcases h with ⟨h, -⟩ | h <;> rw [h] <;> rfl

theorem Inside.locked (h : Inside p log₀ log t streams outbox) : t.pc.locked = true := by
  unfold Inside at h
  cases hpc : t.pc <;> simp_all [Pc.locked]

theorem Commits.packet {got rest : List (List UInt8)} (h : Commits got)
    (hp : got ++ rest = p.chunks) : rest = [] ∧ commitAction (session got).text = p.action := by
  obtain ⟨pre, chunk, rfl, hn⟩ := h
  obtain ⟨pre', last, hsplit, hpre, -, hbytes⟩ := p.split
  have hrest : rest = [] := by
    by_contra hne
    obtain ⟨rest', c, rfl⟩ : ∃ rest' c, rest = rest' ++ [c] :=
      ⟨_, _, (List.dropLast_append_getLast hne).symm⟩
    rw [hsplit, ← List.append_assoc] at hp
    obtain ⟨rfl, -⟩ := List.append_inj' hp rfl
    exact hpre chunk (by simp) hn
  subst hrest
  refine ⟨rfl, ?_⟩
  rw [List.append_nil] at hp
  rw [hp, session_text, Packet.action, hsplit, ← hbytes]
  simp

end

/-! ## The system -/

section
variable {ι : Type}

/-- The log after the commits of some connections. -/
def logAfter (packets : ι → Packet) (log : CommandLog) (order : List ι) : CommandLog :=
  order.foldl (fun log i => commit log (packets i).action) log

theorem logAfter_concat (packets : ι → Packet) (log : CommandLog) (order : List ι) (i : ι) :
    logAfter packets log (order ++ [i])
      = commit (logAfter packets log order) (packets i).action := by
  simp [logAfter]

/-- Where an element of an order stands: last, or before the last. -/
theorem concat_eq_append_cons {order pre post : List ι} {i j : ι}
    (h : order ++ [i] = pre ++ j :: post) :
    (pre = order ∧ j = i ∧ post = []) ∨
      ∃ post', post = post' ++ [i] ∧ order = pre ++ j :: post' := by
  rcases List.eq_nil_or_concat post with rfl | ⟨post', k, rfl⟩
  · left
    obtain ⟨rfl, hij⟩ := List.append_inj' h rfl
    simp only [List.cons.injEq, and_true] at hij
    exact ⟨rfl, hij.symm, rfl⟩
  · right
    rw [List.concat_eq_append, ← List.cons_append, ← List.append_assoc] at h
    obtain ⟨rfl, hik⟩ := List.append_inj' h rfl
    simp only [List.cons.injEq, and_true] at hik
    exact ⟨post', by rw [List.concat_eq_append, hik], rfl⟩

theorem lockOrder_concat (outs : List (Option (ι × Call))) (out : Option (ι × Call)) :
    lockOrder (outs ++ [out]) = lockOrder outs ++ lockOrder [out] := by
  simp [lockOrder]

theorem lockOrder_call {i : ι} {call : Call} (h : call ≠ .pthreadMutexLock) :
    lockOrder [some (i, call)] = [] := by
  cases call <;> first | rfl | exact absurd rfl h

/-- **The system's invariant.** The log of the device, `a.log`, is that of the
commits of the threads that got the mutex (`order`), and each of them was sent
the reply to its own. -/
structure Consistent (packets : ι → Packet) (a₀ : LogState) (order : List ι)
    (w : World ι) (a : LogState) : Prop where
  tracks : Tracks w.driver a
  limit : a.limit = a₀.limit
  buffer : a₀.buffer ≠ .freed → a.buffer ≠ .freed
  follows : ∀ i, ∃ got, got ++ w.inbox i = (packets i).chunks ∧ Follows (w.threads i) got
  nodup : order.Nodup
  waiting : ∀ i ∉ order, Waiting (w.threads i) (w.inbox i) ∧ w.outbox i = []
  ended : ∀ pre i post, order = pre ++ i :: post → w.mutex ≠ some i →
    Ended (w.threads i) (w.inbox i) ∧
      ∃ fill, w.outbox i = reply (logAfter packets a₀.log pre) fill (packets i).action
  inside : ∀ i, w.mutex = some i → ∃ pre, order = pre ++ [i] ∧ w.inbox i = [] ∧
    Inside (packets i) (logAfter packets a₀.log pre) a.log (w.threads i) w.streams
      (w.outbox i)
  free : w.mutex = none → a.log = logAfter packets a₀.log order

theorem opened_setStream {t : Thread} {file : Nat} (h : t.phSocketDataFile = some file)
    (w : World ι) (s : Stream) : Opened t (w.setStream file (some s)).streams s :=
  ⟨file, h, Function.update_self _ _ _⟩

/-- Only the connection `i` differs. -/
structure SameElse (i : ι) (w w' : World ι) : Prop where
  threads : ∀ j, j ≠ i → w'.threads j = w.threads j
  inbox : ∀ j, j ≠ i → w'.inbox j = w.inbox j
  outbox : ∀ j, j ≠ i → w'.outbox j = w.outbox j

variable {packets : ι → Packet} {a₀ a a' : LogState} {order : List ι} {w w' : World ι}
  {i : ι}

theorem consistent_init (packets : ι → Packet) {driver : DriverState}
    (h : Tracks driver a₀) :
    Consistent packets a₀ [] (World.init driver fun i => (packets i).chunks) a₀ where
  tracks := h
  limit := rfl
  buffer := id
  follows := fun i => ⟨[], rfl, follows_init⟩
  nodup := List.nodup_nil
  waiting := fun i _ => ⟨trivial, rfl⟩
  ended := fun pre i post hsplit => by simp at hsplit
  inside := fun i hm => by cases hm
  free := fun _ => rfl

/-- A thread between the lock and the unlock has the mutex. -/
theorem Consistent.holder (h : Consistent packets a₀ order w a)
    (hpc : (w.threads i).pc.locked = true) : w.mutex = some i := by
  by_contra hm
  by_cases hi : i ∈ order
  · obtain ⟨pre, post, hsplit⟩ := List.append_of_mem hi
    have := (h.ended pre i post hsplit hm).1.locked
    rw [hpc] at this
    cases this
  · have := (h.waiting i hi).1.locked
    rw [hpc] at this
    cases this

/-- The thread with the mutex is between the lock and the unlock. -/
theorem Consistent.locked (h : Consistent packets a₀ order w a) (hm : w.mutex = some i) :
    (w.threads i).pc.locked = true := by
  obtain ⟨_, -, -, hin⟩ := h.inside i hm
  exact hin.locked

theorem Consistent.not_mem (h : Consistent packets a₀ order w a)
    (hlocked : (w.threads i).pc.locked = false)
    (hrecv : (w.threads i).pc = .recv → w.inbox i ≠ []) (hdone : (w.threads i).pc ≠ .done) :
    i ∉ order := by
  intro hi
  obtain ⟨pre, post, hsplit⟩ := List.append_of_mem hi
  have hm : w.mutex ≠ some i := by
    intro hm
    have := h.locked hm
    rw [hlocked] at this
    cases this
  rcases (h.ended pre i post hsplit hm).1 with ⟨hpc, hin⟩ | hpc
  · exact hrecv hpc hin
  · exact hdone hpc

/-- When all threads are done, all have had the mutex, and it is free. -/
theorem Consistent.all_done (h : Consistent packets a₀ order w a)
    (hdone : ∀ i, (w.threads i).pc = .done) : w.mutex = none ∧ ∀ i, i ∈ order := by
  constructor
  · cases hm : w.mutex with
    | none => rfl
    | some i =>
        have := h.locked hm
        rw [hdone i] at this
        cases this
  · intro i
    by_contra hi
    have := (h.waiting i hi).1
    unfold Waiting at this
    rw [hdone i] at this
    exact this

/-- **A step outside**: a thread without the mutex goes on, and stays on its
side of the commit. -/
theorem Consistent.step_outside (h : Consistent packets a₀ order w a)
    (hsame : SameElse i w w') (hi : w.mutex ≠ some i) (hmutex : w'.mutex = w.mutex)
    (hdriver : w'.driver = w.driver) (hstreams : w'.streams = w.streams)
    (houtbox : w'.outbox i = w.outbox i)
    (hfollows : ∀ j, ∃ got, got ++ w'.inbox j = (packets j).chunks ∧
      Follows (w'.threads j) got)
    (hwaiting : i ∉ order → Waiting (w'.threads i) (w'.inbox i))
    (hended : i ∈ order → Ended (w'.threads i) (w'.inbox i)) :
    Consistent packets a₀ order w' a where
  tracks := by rw [hdriver]; exact h.tracks
  limit := h.limit
  buffer := h.buffer
  follows := hfollows
  nodup := h.nodup
  waiting := by
    intro j hj
    by_cases hji : j = i
    · subst hji
      exact ⟨hwaiting hj, by rw [houtbox]; exact (h.waiting j hj).2⟩
    · rw [hsame.threads j hji, hsame.inbox j hji, hsame.outbox j hji]
      exact h.waiting j hj
  ended := by
    intro pre j post hsplit hj
    rw [hmutex] at hj
    by_cases hji : j = i
    · subst hji
      refine ⟨hended (by simp [hsplit]), ?_⟩
      rw [houtbox]
      exact (h.ended pre j post hsplit hj).2
    · rw [hsame.threads j hji, hsame.inbox j hji, hsame.outbox j hji]
      exact h.ended pre j post hsplit hj
  inside := by
    intro j hj
    rw [hmutex] at hj
    have hji : j ≠ i := by
      rintro rfl
      exact hi hj
    rw [hsame.threads j hji, hsame.inbox j hji, hsame.outbox j hji, hstreams]
    exact h.inside j hj
  free := by
    rw [hmutex]
    exact h.free

/-- **A step inside**: the thread with the mutex goes on. -/
theorem Consistent.step_inside (h : Consistent packets a₀ order w a)
    (hsame : SameElse i w w') (hi : w.mutex = some i) (hmutex : w'.mutex = some i)
    (htracks : Tracks w'.driver a') (hlimit : a'.limit = a.limit)
    (hbuffer : a.buffer ≠ .freed → a'.buffer ≠ .freed)
    (hfollows : ∀ j, ∃ got, got ++ w'.inbox j = (packets j).chunks ∧
      Follows (w'.threads j) got)
    (hinbox : w'.inbox i = w.inbox i)
    (hinside : ∀ log₀, Inside (packets i) log₀ a.log (w.threads i) w.streams (w.outbox i) →
      Inside (packets i) log₀ a'.log (w'.threads i) w'.streams (w'.outbox i)) :
    Consistent packets a₀ order w' a' where
  tracks := htracks
  limit := by rw [hlimit, h.limit]
  buffer := fun hb => hbuffer (h.buffer hb)
  follows := hfollows
  nodup := h.nodup
  waiting := by
    intro j hj
    have hji : j ≠ i := by
      rintro rfl
      obtain ⟨pre, rfl, -⟩ := h.inside j hi
      simp at hj
    rw [hsame.threads j hji, hsame.inbox j hji, hsame.outbox j hji]
    exact h.waiting j hj
  ended := by
    intro pre j post hsplit hj
    have hji : j ≠ i := by
      rintro rfl
      exact hj hmutex
    rw [hsame.threads j hji, hsame.inbox j hji, hsame.outbox j hji]
    refine h.ended pre j post hsplit ?_
    rw [hi, ← hmutex]
    exact hj
  inside := by
    intro j hj
    rw [hmutex] at hj
    cases hj
    obtain ⟨pre, hsplit, hin, hins⟩ := h.inside i hi
    exact ⟨pre, hsplit, by rw [hinbox, hin], hinside _ hins⟩
  free := by
    intro hm
    rw [hmutex] at hm
    cases hm

/-- **The lock**: a waiting thread gets the mutex. -/
theorem Consistent.step_lock (h : Consistent packets a₀ order w a)
    (hsame : SameElse i w w') (hpc : (w.threads i).pc = .mutexLock)
    (hfree : w.mutex = none) (hmutex : w'.mutex = some i) (hdriver : w'.driver = w.driver)
    (hpc' : (w'.threads i).pc = .fopen) (hinbox : w'.inbox i = w.inbox i)
    (houtbox : w'.outbox i = w.outbox i)
    (hfollows : ∀ j, ∃ got, got ++ w'.inbox j = (packets j).chunks ∧
      Follows (w'.threads j) got) :
    Consistent packets a₀ (order ++ [i]) w' a := by
  -- a thread that has committed does not lock again
  have hi : i ∉ order := by
    intro hi
    obtain ⟨pre, post, hsplit⟩ := List.append_of_mem hi
    rcases (h.ended pre i post hsplit (by simp [hfree])).1 with ⟨he, -⟩ | he <;>
      rw [hpc] at he <;> cases he
  obtain ⟨got, hgot, hf⟩ := h.follows i
  unfold Follows at hf
  rw [hpc] at hf
  refine ⟨by rw [hdriver]; exact h.tracks, h.limit, h.buffer, hfollows, ?_, ?_, ?_, ?_, ?_⟩
  · exact List.nodup_append.mpr ⟨h.nodup, by simp, by
      intro x hx y hy
      rw [List.mem_singleton.mp hy]
      rintro rfl
      exact hi hx⟩
  · intro j hj
    have hj' : j ∉ order ∧ j ≠ i := by simpa using hj
    rw [hsame.threads j hj'.2, hsame.inbox j hj'.2, hsame.outbox j hj'.2]
    exact h.waiting j hj'.1
  · intro pre j post hsplit hj
    have hji : j ≠ i := by
      rintro rfl
      exact hj hmutex
    rw [hsame.threads j hji, hsame.inbox j hji, hsame.outbox j hji]
    rcases concat_eq_append_cons hsplit with ⟨-, hij, -⟩ | ⟨post', rfl, hold⟩
    · exact absurd hij hji
    · exact h.ended pre j post' hold (by simp [hfree])
  · intro j hj
    rw [hmutex] at hj
    cases hj
    refine ⟨order, rfl, by rw [hinbox, (hf.2.packet hgot).1], ?_⟩
    unfold Inside
    rw [hpc']
    exact ⟨h.free hfree, by rw [houtbox]; exact (h.waiting i hi).2⟩
  · intro hm
    rw [hmutex] at hm
    cases hm

/-- **The unlock**: the commit is complete. -/
theorem Consistent.step_unlock (h : Consistent packets a₀ order w a)
    (hsame : SameElse i w w') (hpc : (w.threads i).pc = .mutexUnlock)
    (hmutex : w'.mutex = none) (hdriver : w'.driver = w.driver)
    (hpc' : (w'.threads i).pc = .recv) (hinbox : w'.inbox i = w.inbox i)
    (houtbox : w'.outbox i = w.outbox i)
    (hfollows : ∀ j, ∃ got, got ++ w'.inbox j = (packets j).chunks ∧
      Follows (w'.threads j) got) :
    Consistent packets a₀ order w' a := by
  have hi : w.mutex = some i := h.holder (by rw [hpc]; rfl)
  obtain ⟨pre, rfl, hin, hins⟩ := h.inside i hi
  unfold Inside at hins
  rw [hpc] at hins
  obtain ⟨hlog, hout⟩ := hins
  refine ⟨by rw [hdriver]; exact h.tracks, h.limit, h.buffer, hfollows, h.nodup,
    ?_, ?_, ?_, ?_⟩
  · intro j hj
    have hji : j ≠ i := by
      rintro rfl
      simp at hj
    rw [hsame.threads j hji, hsame.inbox j hji, hsame.outbox j hji]
    exact h.waiting j hj
  · intro pre' j post hsplit _
    by_cases hji : j = i
    · subst hji
      rcases concat_eq_append_cons hsplit with ⟨rfl, -, rfl⟩ | ⟨post', rfl, rfl⟩
      · rw [houtbox]
        exact ⟨.inl ⟨hpc', by rw [hinbox, hin]⟩, hout⟩
      · -- a connection is in the order once
        exact absurd rfl ((List.nodup_append.mp h.nodup).2.2 j (by simp) j (by simp))
    · rw [hsame.threads j hji, hsame.inbox j hji, hsame.outbox j hji]
      refine h.ended pre' j post hsplit ?_
      rw [hi]
      intro he
      cases he
      exact hji rfl
  · intro j hj
    rw [hmutex] at hj
    cases hj
  · intro _
    rw [hlog, logAfter_concat]

end

/-! ## Inside the critical section -/

section
variable {ι : Type} {a : LogState} {w : World ι} {i : ι} {p : Packet} {log₀ : CommandLog}

theorem Inside.opened {got : List (List UInt8)} {file : Nat} {t : Thread}
    (h : Inside p log₀ a.log (w.threads i) w.streams (w.outbox i))
    (hpc : (w.threads i).pc = .fopen) (hf : Follows (w.threads i) got)
    (hgot : got ++ w.inbox i = p.chunks) (hr : (w.threads i).opened (some file) = some t) :
    Inside p log₀ a.log t (w.setStream file (some .fresh)).streams (w.outbox i) := by
  unfold Inside at h
  unfold Follows at hf
  rw [hpc] at h hf
  obtain ⟨hacc, hcommits⟩ := hf
  obtain ⟨u, hu, -, hfile, hupc⟩ := hacc.opened hcommits.ne_nil (some file)
  rw [hu] at hr
  cases hr
  rw [(hcommits.packet hgot).2] at hupc
  have hopen : Opened t (w.setStream file (some .fresh)).streams .fresh :=
    opened_setStream hfile w .fresh
  unfold Inside
  rw [hupc]
  cases p.action with
  | write text => exact ⟨rfl, h.1, h.2, hopen⟩
  | ioctl seekto => exact ⟨rfl, h.1, h.2, hopen⟩

theorem Inside.printed {text : List UInt8} {file : Nat}
    (h : Inside p log₀ a.log (w.threads i) w.streams (w.outbox i))
    (hpc : (w.threads i).pc = .fprintf text)
    (hfile : (w.threads i).phSocketDataFile = some file) :
    Inside p log₀ a.log { w.threads i with pc := .getline }
      (w.setStream file (some { Stream.fresh with out := Stream.fresh.out ++ text })).streams
      (w.outbox i) := by
  unfold Inside at h
  rw [hpc] at h
  obtain ⟨hact, hlog, hout, -⟩ := h
  have htext : text = p.bytes := by
    unfold Packet.action commitAction at hact
    split at hact <;> cases hact
    rfl
  refine ⟨_, opened_setStream hfile w _, ?_⟩
  refine .printing [] (by rw [hact, htext]) (by simp [Stream.fresh, htext]) ?_ ?_ rfl rfl rfl ?_
  · simp [Stream.fresh, htext, p.bytes_ne_nil]
  · rw [hlog, CommandLog.write_nil]
  · simp [hout, Stream.fresh]

theorem Inside.sought {fd : Int} {seekto : Seekto} {file : Nat} (fill : Nat → UInt8)
    (h : Inside p log₀ a.log (w.threads i) w.streams (w.outbox i))
    (hpc : (w.threads i).pc = .ioctl fd seekto)
    (hfile : (w.threads i).phSocketDataFile = some file) :
    Inside p log₀ a.log { w.threads i with pc := .getline }
      (w.setStream file
        (some { Stream.fresh with fPos := startPos a.log fill p.action })).streams
      (w.outbox i) := by
  unfold Inside at h
  rw [hpc] at h
  obtain ⟨hact, hlog, hout, -⟩ := h
  refine ⟨_, opened_setStream hfile w _, .reading fill ?_ ?_⟩
  · rw [hlog, hact]
    rfl
  · show Reading a.log (startPos log₀ fill p.action) _ (w.outbox i ++ [])
    rw [hlog, hout]
    refine ⟨rfl, ?_, List.nil_prefix, fun he => by cases he⟩
    simp

/-- What `getline` finds: the reply is read back, and all of it if it finds
the end. -/
theorem Inside.getline {r : Resp} {s s' : Stream}
    (h : Inside p log₀ a.log (w.threads i) w.streams (w.outbox i))
    (hpc : (w.threads i).pc = .getline) (hopen : Opened (w.threads i) w.streams s)
    (hline : s.getline = some (r, s')) :
    a.log = commit log₀ p.action ∧ s'.out = [] ∧ ∃ fill,
      ((r = .int (-1) ∧ w.outbox i = reply log₀ fill p.action) ∨
        ∃ line, r = .bytes line ∧ 0 < line.length ∧ line.length ≤ a.log.contents.length ∧
          Reading a.log (startPos log₀ fill p.action) s' (w.outbox i ++ line ++ s'.inp)) := by
  unfold Inside at h
  rw [hpc] at h
  obtain ⟨s₀, hopen₀, hserving⟩ := h
  obtain rfl := hopen.eq hopen₀
  obtain ⟨hout, hout', hpos, heof, hcases⟩ := Stream.getline_cases hline
  cases hserving with
  | printing _ _ _ hne => exact absurd hout hne
  | reading fill hlog hread =>
      refine ⟨hlog, by rw [hout', hout], fill, ?_⟩
      rcases hcases with ⟨rfl, he, hinp, -⟩ | ⟨line, rfl, hne, hinp⟩
      · -- the end: everything read was sent
        have hall := hread.eof he
        rw [hinp, List.append_nil, hlog] at hall
        exact .inl ⟨rfl, hall⟩
      · have hle := hread.delivered_prefix.length_le
        have hle' := readFrom_length_le a.log (startPos log₀ fill p.action)
        rw [hinp, List.length_append, List.length_append] at hle
        refine .inr ⟨line, rfl, List.length_pos_of_ne_nil hne, by omega,
          hread.of_eq hout' hpos heof ?_⟩
        simp [hinp]

theorem Inside.sent {line : List UInt8} {total : Nat}
    (h : Inside p log₀ a.log (w.threads i) w.streams (w.outbox i))
    (hpc : (w.threads i).pc = .send line total) (n : Nat) :
    Inside p log₀ a.log ((w.threads i).sendLoop line (total + n)) w.streams
      (w.outbox i ++ (line.drop total).take n) := by
  unfold Inside at h
  rw [hpc] at h
  obtain ⟨htotal, hline, hlog, s, fill, hopen, hread⟩ := h
  have hsent : w.outbox i ++ (line.drop total).take n ++ line.drop (total + n) ++ s.inp
      = w.outbox i ++ line.drop total ++ s.inp := by
    rw [← List.drop_drop, List.append_assoc (w.outbox i), List.take_append_drop]
  unfold Inside Thread.sendLoop
  by_cases hmore : total + n < line.length
  · rw [if_pos hmore]
    exact ⟨hmore, hline, hlog, s, fill, hopen, hread.of_eq rfl rfl rfl hsent⟩
  · rw [if_neg hmore]
    refine ⟨s, hopen, .reading fill hlog (hread.of_eq rfl rfl rfl ?_)⟩
    have hend : line.drop (total + n) = [] := List.drop_eq_nil_iff.mpr (by omega)
    rw [hend, List.append_nil] at hsent
    exact hsent

end

/-! ## One step -/

section
variable {ι : Type} [DecidableEq ι] {packets : ι → Packet} {a₀ a : LogState}
  {order : List ι} {w w' w₁ : World ι} {i : ι} {n : Nat} {fill : Nat → UInt8}

/-- What the result of a call changes outside its thread: of the threads'
things only the inbox and the outbox of its own connection. -/
theorem World.answer_frame {call : Call} {r : Resp}
    (h : w.answer i n fill call = some (r, w₁)) :
    w₁.threads = w.threads ∧ w₁.driver = w.driver ∧
      (chunkOf (call, r)).toList ++ w₁.inbox i = w.inbox i ∧
      ∀ j, j ≠ i → w₁.inbox j = w.inbox j ∧ w₁.outbox j = w.outbox j := by
  have hsame : ∀ w₂ : World ι, w₂.threads = w.threads → w₂.driver = w.driver →
      w₂.inbox = w.inbox → w₂.outbox = w.outbox → chunkOf (call, r) = none →
      w₂.threads = w.threads ∧ w₂.driver = w.driver ∧
        (chunkOf (call, r)).toList ++ w₂.inbox i = w.inbox i ∧
        ∀ j, j ≠ i → w₂.inbox j = w.inbox j ∧ w₂.outbox j = w.outbox j := by
    intro w₂ ht hd hin hout hc
    rw [hc, hin, hout]
    exact ⟨ht, hd, rfl, fun _ _ => ⟨rfl, rfl⟩⟩
  unfold World.answer at h
  cases call with
  | inetNtop =>
      cases h
      exact hsame w rfl rfl rfl rfl rfl
  | recv len =>
      dsimp only at h
      split at h
      · rename_i hnil
        cases h
        exact hsame w rfl rfl rfl rfl rfl
      · rename_i chunk chunks hcons
        cases h
        refine ⟨rfl, rfl, ?_, fun j hj => ⟨Function.update_of_ne hj _ _, rfl⟩⟩
        simp [chunkOf, hcons]
  | realloc size =>
      cases h
      exact hsame w rfl rfl rfl rfl rfl
  | pthreadMutexLock =>
      dsimp only at h
      split at h <;> cases h
      exact hsame _ rfl rfl rfl rfl rfl
  | fopen =>
      cases h
      exact hsame _ rfl rfl rfl rfl rfl
  | fprintf file text =>
      simp only [Option.bind_eq_bind, Option.bind_eq_some_iff] at h
      obtain ⟨file, -, s, -, h⟩ := h
      cases h
      exact hsame _ rfl rfl rfl rfl rfl
  | fileno file =>
      simp only [Option.bind_eq_bind, Option.bind_eq_some_iff] at h
      obtain ⟨file, -, h⟩ := h
      cases h
      exact hsame _ rfl rfl rfl rfl rfl
  | ioctl fd cmd seekto =>
      simp only [Option.bind_eq_bind, Option.bind_eq_some_iff] at h
      obtain ⟨s, -, p, -, h⟩ := h
      cases h
      exact hsame _ rfl rfl rfl rfl rfl
  | getline file =>
      simp only [Option.bind_eq_bind, Option.bind_eq_some_iff] at h
      obtain ⟨file, -, s, -, p, -, h⟩ := h
      cases h
      exact hsame _ rfl rfl rfl rfl rfl
  | send bytes =>
      dsimp only at h
      split at h <;> cases h
      exact ⟨rfl, rfl, rfl, fun j hj => ⟨rfl, Function.update_of_ne hj _ _⟩⟩
  | fclose file =>
      simp only [Option.bind_eq_bind, Option.bind_eq_some_iff] at h
      obtain ⟨file, -, s, -, h⟩ := h
      split at h <;> cases h
      exact hsame _ rfl rfl rfl rfl rfl
  | pthreadMutexUnlock =>
      cases h
      exact hsame _ rfl rfl rfl rfl rfl

/-- A returning call, taken apart. -/
theorem World.step_call {out : Option (ι × Call)}
    (h : w.step (.call i n fill) = some (out, w')) :
    ∃ call r w₁ t, (w.threads i).step r = some (call, t) ∧
      w.answer i n fill call = some (r, w₁) ∧ out = some (i, call) ∧
      w' = w₁.setThread i t := by
  simp only [World.step, Option.bind_eq_bind, Option.bind_eq_some_iff] at h
  obtain ⟨call, hcall, ⟨r, w₁⟩, hans, t, hres, h⟩ := h
  rw [(World.answer_frame hans).1] at hres
  cases h
  exact ⟨call, r, w₁, t, Thread.step_eq_some.mpr ⟨hcall, hres⟩, hans, rfl, rfl⟩

/-- The driver's `ioctl` on a fresh file gives the position of the reply. -/
theorem aesdIoctl_fresh {s : DriverState} (h : Tracks s a) (seekto : Seekto)
    (fill : Nat → UInt8) : ∃ ret, aesdIoctl s 0 aesdcharIocseekto (seekto.onStack fill) .quiet
      = some (ret, startPos a.log fill (.ioctl seekto)) := by
  obtain ⟨held, es, hr⟩ := h.ring
  rw [hr.aesdIoctl]
  exact ⟨_, rfl⟩

section
variable {p : Packet} {log₀ : CommandLog}

/-- **A call inside the critical section**, all but the unlock. -/
theorem Inside.call {call : Call} {r : Resp} {t : Thread} {got : List (List UInt8)}
    (h : Inside p log₀ a.log (w.threads i) w.streams (w.outbox i))
    (htracks : Tracks w.driver a) (hf : Follows (w.threads i) got)
    (hgot : got ++ w.inbox i = p.chunks) (hpc : (w.threads i).pc ≠ .mutexUnlock)
    (hs : (w.threads i).step r = some (call, t))
    (hans : w.answer i n fill call = some (r, w₁)) :
    Inside p log₀ a.log t w₁.streams (w₁.outbox i) ∧ w₁.mutex = w.mutex ∧
      w₁.inbox = w.inbox ∧ call ≠ .pthreadMutexLock := by
  have hin := h
  unfold Inside at hin
  cases Thread.step_cases hs with
  | opened hpc' hr =>
      cases hans
      exact ⟨h.opened hpc' hf hgot hr, rfl, rfl, by simp⟩
  | printed hpc' =>
      rw [hpc'] at hin
      obtain ⟨-, -, -, file, hfile, hstream⟩ := hin
      simp only [World.answer, hfile, hstream, Option.bind_eq_bind, Option.bind_some] at hans
      cases hans
      exact ⟨h.printed hpc' hfile, rfl, rfl, by simp⟩
  | number hpc' =>
      rw [hpc'] at hin
      obtain ⟨hact, hlog, hout, file, hfile, hstream⟩ := hin
      simp only [World.answer, hfile, Option.bind_eq_bind, Option.bind_some] at hans
      cases hans
      exact ⟨⟨hact, hlog, hout, file, rfl, hfile, hstream⟩, rfl, rfl, by simp⟩
  | @sought fd seekto _ hpc' =>
      rw [hpc'] at hin
      obtain ⟨hact, -, -, file, rfl, hfile, hstream⟩ := hin
      obtain ⟨ret, hret⟩ := aesdIoctl_fresh htracks seekto fill
      have hpos : Stream.fresh.fPos = 0 := rfl
      simp only [World.answer, Int.toNat_natCast, hstream, hpos, hret, Option.bind_eq_bind,
        Option.bind_some] at hans
      cases hans
      rw [← hact]
      exact ⟨h.sought fill hpc' hfile, rfl, rfl, by simp⟩
  | endOfFile hpc' =>
      rw [hpc'] at hin
      obtain ⟨s, ⟨file, hfile, hstream⟩, -⟩ := hin
      simp only [World.answer, hfile, hstream, Option.bind_eq_bind, Option.bind_some,
        Option.bind_eq_some_iff] at hans
      obtain ⟨⟨r, s'⟩, hline, hans⟩ := hans
      cases hans
      obtain ⟨hlog, hout, fill', ⟨-, hall⟩ | ⟨_, hbytes, -⟩⟩ :=
        h.getline hpc' ⟨file, hfile, hstream⟩ hline
      · exact ⟨⟨hlog, ⟨fill', hall⟩, s', opened_setStream hfile w s', hout⟩, rfl, rfl,
          by simp⟩
      · cases hbytes
  | line hpc' =>
      rw [hpc'] at hin
      obtain ⟨s, ⟨file, hfile, hstream⟩, -⟩ := hin
      simp only [World.answer, hfile, hstream, Option.bind_eq_bind, Option.bind_some,
        Option.bind_eq_some_iff] at hans
      obtain ⟨⟨r, s'⟩, hline, hans⟩ := hans
      cases hans
      obtain ⟨hlog, -, fill', ⟨hend, -⟩ | ⟨line, hbytes, hlen, hle, hread⟩⟩ :=
        h.getline hpc' ⟨file, hfile, hstream⟩ hline
      · cases hend
      · cases hbytes
        refine ⟨?_, rfl, rfl, by simp⟩
        unfold Inside Thread.sendLoop
        rw [if_pos hlen]
        exact ⟨hlen, hle, hlog, s', fill', opened_setStream hfile w s', hread⟩
  | notSent hpc' =>
      simp only [World.answer] at hans
      split at hans <;> cases hans
  | sent hpc' hn =>
      simp only [World.answer] at hans
      split at hans <;> cases hans
      refine ⟨?_, rfl, rfl, by simp⟩
      simp only [Int.toNat_natCast, Function.update_self]
      exact h.sent hpc' n
  | fileClosed hpc' =>
      rw [hpc'] at hin
      obtain ⟨hlog, hout, s, ⟨file, hfile, hstream⟩, hempty⟩ := hin
      simp only [World.answer, hfile, hstream, hempty, Option.bind_eq_bind, Option.bind_some,
        if_true] at hans
      cases hans
      exact ⟨⟨hlog, hout⟩, rfl, rfl, by simp⟩
  | notOpened hpc' hr => cases hans
  | unlocked hpc' => exact absurd hpc' hpc
  | noAddress hpc' | address hpc' | ended hpc' | received hpc' | noMemory hpc'
  | reallocated hpc' | locked hpc' =>
      rw [hpc'] at hin
      exact hin.elim

end

/-- Whatever a call returns, every thread follows its own session. -/
theorem Consistent.follows_call (h : Consistent packets a₀ order w a) {call : Call}
    {r : Resp} {t : Thread} (hs : (w.threads i).step r = some (call, t))
    (hans : w.answer i n fill call = some (r, w₁)) :
    ∀ j, ∃ got, got ++ (w₁.setThread i t).inbox j = (packets j).chunks ∧
      Follows ((w₁.setThread i t).threads j) got := by
  obtain ⟨hthreads, -, hin, hother⟩ := World.answer_frame hans
  intro j
  obtain ⟨got, hgot, hf⟩ := h.follows j
  by_cases hj : j = i
  · subst hj
    refine ⟨got ++ (chunkOf (call, r)).toList, ?_, ?_⟩
    · rw [List.append_assoc]
      exact (congrArg (got ++ ·) hin).trans hgot
    · rw [World.setThread_self]
      exact (hf.step hs).follows
  · refine ⟨got, (congrArg (got ++ ·) (hother j hj).1).trans hgot, ?_⟩
    rw [World.setThread_of_ne _ hj, hthreads]
    exact hf

theorem World.answer_same {call : Call} {r : Resp}
    (hans : w.answer i n fill call = some (r, w₁)) (t : Thread) :
    SameElse i w (w₁.setThread i t) := by
  obtain ⟨hthreads, -, -, hother⟩ := World.answer_frame hans
  refine ⟨fun j hj => ?_, fun j hj => (hother j hj).1, fun j hj => (hother j hj).2⟩
  rw [World.setThread_of_ne _ hj, hthreads]

/-- **A call outside the critical section**, all but the lock. -/
theorem Consistent.call_outside (h : Consistent packets a₀ order w a) {call : Call}
    {r : Resp} {t : Thread} (hs : (w.threads i).step r = some (call, t))
    (hans : w.answer i n fill call = some (r, w₁))
    (hlocked : (w.threads i).pc.locked = false) (hlock : (w.threads i).pc ≠ .mutexLock) :
    Consistent packets a₀ order (w₁.setThread i t) a ∧
      call ≠ .pthreadMutexLock := by
  have hfollows := h.follows_call hs hans
  have hsame := World.answer_same hans t
  have hm : w.mutex ≠ some i := by
    intro hm
    have := h.locked hm
    rw [hlocked] at this
    cases this
  obtain ⟨got, hgot, hf⟩ := h.follows i
  unfold Follows at hf
  cases Thread.step_cases hs with
  | noAddress hpc => cases hans
  | address hpc =>
      have hi : i ∉ order := h.not_mem hlocked (by simp [hpc]) (by simp [hpc])
      rw [hpc] at hf
      cases hans
      refine ⟨h.step_outside hsame hm rfl rfl rfl rfl hfollows (fun _ => ?_)
        (fun hi' => absurd hi' hi), by simp⟩
      -- nothing was received yet, and a packet has chunks
      rw [World.setThread_self]
      obtain ⟨pre, last, hchunks, -⟩ := (packets i).split
      rw [hf.1, List.nil_append] at hgot
      show w.inbox i ≠ []
      simp [hgot, hchunks]
  | ended hpc hn =>
      simp only [World.answer] at hans
      split at hans <;> cases hans
      rename_i hnil
      -- the client is done, so its packet was committed
      have hi : i ∈ order := by
        by_contra hi
        have hw := (h.waiting i hi).1
        unfold Waiting at hw
        rw [hpc] at hw
        exact hw hnil
      refine ⟨h.step_outside hsame hm rfl rfl rfl rfl hfollows
        (fun hi' => absurd hi hi') (fun _ => .inr ?_), by simp⟩
      rw [World.setThread_self]
      rfl
  | received hpc hlen hr =>
      rw [hpc] at hf
      simp only [World.answer] at hans
      split at hans <;> cases hans
      rename_i hcons
      have hi : i ∉ order := h.not_mem hlocked (by simp [hcons]) (by simp [hpc])
      obtain ⟨-, hpc'⟩ := hf.received hlen.2 hr
      refine ⟨h.step_outside hsame hm rfl rfl rfl rfl hfollows (fun _ => ?_)
        (fun hi' => absurd hi' hi), by simp⟩
      rw [World.setThread_self]
      unfold Waiting
      rw [hpc']
      trivial
  | noMemory hpc => cases hans
  | reallocated hpc hr =>
      have hi : i ∉ order := h.not_mem hlocked (by simp [hpc]) (by simp [hpc])
      rw [hpc] at hf
      cases hans
      obtain ⟨pre, chunk, rfl, hrec, rfl, rfl⟩ := hf
      obtain ⟨u, hu, -, hupc⟩ :=
        hrec.reallocated (decide (newline ∈ chunkText chunk)) fill
      rw [hu] at hr
      cases hr
      refine ⟨h.step_outside hsame hm rfl rfl rfl rfl hfollows (fun _ => ?_)
        (fun hi' => absurd hi' hi), by simp⟩
      rw [World.setThread_self]
      unfold Waiting
      rw [hupc]
      by_cases hn : newline ∈ chunkText chunk
      · simp [hn]
      · -- without its newline the packet is not complete
        simp only [hn, decide_false, Bool.false_eq_true, if_false]
        intro hnil
        have hnil : w.inbox i = [] := hnil
        obtain ⟨pre', last, hsplit, -, hlast, -⟩ := (packets i).split
        rw [hnil, List.append_nil, hsplit] at hgot
        obtain ⟨-, hcl⟩ := List.append_inj' hgot rfl
        cases hcl
        exact hn hlast
  | locked hpc => exact absurd hpc hlock
  | notOpened hpc | opened hpc | printed hpc | number hpc | sought hpc | endOfFile hpc
  | line hpc | notSent hpc | sent hpc | fileClosed hpc | unlocked hpc =>
      rw [hpc] at hlocked
      cases hlocked

theorem Consistent.step_call (h : Consistent packets a₀ order w a)
    {out : Option (ι × Call)} (hs : w.step (.call i n fill) = some (out, w')) :
    Consistent packets a₀ (order ++ lockOrder [out]) w' a := by
  obtain ⟨call, r, w₁, t, hstep, hans, rfl, rfl⟩ := World.step_call hs
  obtain ⟨hcall, hres⟩ := Thread.step_eq_some.mp hstep
  have hfollows := h.follows_call hstep hans
  have hsame := World.answer_same hans t
  by_cases hlock : (w.threads i).pc = .mutexLock
  · unfold Thread.call at hcall
    unfold Thread.resume at hres
    rw [hlock] at hcall hres
    cases hcall
    unfold World.answer at hans
    dsimp only at hans
    split at hans
    case h_2 => cases hans
    rename_i hfree
    cases hans
    cases hres
    exact h.step_lock hsame hlock hfree rfl rfl (by rw [World.setThread_self]) rfl rfl hfollows
  by_cases hunlock : (w.threads i).pc = .mutexUnlock
  · unfold Thread.call at hcall
    unfold Thread.resume at hres
    rw [hunlock] at hcall hres
    cases hcall
    cases hans
    cases hres
    rw [lockOrder_call (by simp), List.append_nil]
    exact h.step_unlock hsame hunlock rfl rfl (by rw [World.setThread_self]) rfl rfl hfollows
  cases hl : (w.threads i).pc.locked with
  | false =>
      obtain ⟨hc, hne⟩ := h.call_outside hstep hans hl hlock
      rw [lockOrder_call hne, List.append_nil]
      exact hc
  | true =>
      have hm := h.holder hl
      obtain ⟨got, hgot, hf⟩ := h.follows i
      obtain ⟨pre, hsplit, hin, hins⟩ := h.inside i hm
      have hcalls := fun log₀ (hins : Inside _ log₀ a.log _ _ _) =>
        hins.call h.tracks hf hgot hunlock hstep hans
      obtain ⟨-, hmutex, hinbox, hne⟩ := hcalls _ hins
      rw [lockOrder_call hne, List.append_nil]
      have hdriver : (w₁.setThread i t).driver = w.driver := (World.answer_frame hans).2.1
      refine h.step_inside hsame hm (by rw [← hm]; exact hmutex)
        (by rw [hdriver]; exact h.tracks) rfl id hfollows (congrFun hinbox i) fun log₀ hins => ?_
      rw [World.setThread_self]
      exact (hcalls log₀ hins).1

theorem Consistent.step_flush (h : Consistent packets a₀ order w a)
    {env : WriteEnv} {out : Option (ι × Call)}
    (hs : w.step (.flush i n env) = some (out, w')) :
    out = none ∧ ∃ a', Consistent packets a₀ order w' a' := by
  simp only [World.step, Option.bind_eq_bind, Option.bind_eq_some_iff] at hs
  obtain ⟨file, hfile, s, hstream, hs⟩ := hs
  split at hs
  case isFalse => cases hs
  rename_i hcond
  have hpc := hcond.1
  have hn := hcond.2.1
  have hle := hcond.2.2.1
  simp only [Option.bind_eq_some_iff] at hs
  obtain ⟨⟨ret, driver⟩, hwrite, hs⟩ := hs
  split at hs
  case isFalse => cases hs
  rename_i hret
  have hret : ret = (n : Int) := hret
  cases hs
  refine ⟨rfl, ?_⟩
  -- the driver follows the log: the write returned its count, so it was stored
  have hlock := h.tracks.write ⟨s.out.take n, by
    have := List.length_take_le n s.out
    omega⟩ env
  rw [hwrite] at hlock
  obtain ⟨a', ha, htracks⟩ := hlock.of_some_left
  obtain ⟨hret', hlimit, hcases⟩ := LogState.write_cases ha
  have hstored := WriteOutcome.ret_nonneg_iff.mp (by rw [← hret', hret]; omega)
  rw [hstored] at hcases
  simp only [reduceCtorEq, false_and, false_or, true_and] at hcases
  obtain ⟨-, hlog, hbuffer⟩ := hcases
  have hm := h.holder (by rw [hpc]; rfl)
  refine ⟨a', h.step_inside ⟨fun _ _ => rfl, fun _ _ => rfl, fun _ _ => rfl⟩ hm hm htracks
    hlimit (fun _ => ?_) h.follows rfl fun log₀ hins => ?_⟩
  · rw [hbuffer]
    split <;> simp
  · unfold Inside at hins
    rw [hpc] at hins
    obtain ⟨s', hopen, hserving⟩ := hins
    obtain rfl := Opened.eq ⟨file, hfile, hstream⟩ hopen
    show Inside (packets i) log₀ a'.log (w.threads i) _ (w.outbox i)
    unfold Inside
    rw [hpc, hlog]
    exact ⟨_, ⟨file, hfile, Function.update_self _ _ _⟩, hserving.flush hn hle⟩

theorem Consistent.step_refill (h : Consistent packets a₀ order w a)
    {count : Nat} {out : Option (ι × Call)}
    (hs : w.step (.refill i count) = some (out, w')) :
    out = none ∧ Consistent packets a₀ order w' a := by
  simp only [World.step, Option.bind_eq_bind, Option.bind_eq_some_iff] at hs
  obtain ⟨file, hfile, s, hstream, hs⟩ := hs
  split at hs
  case isFalse => cases hs
  rename_i hcond
  obtain ⟨hpc, hout, -, -, hcount⟩ := hcond
  simp only [Option.bind_eq_some_iff] at hs
  obtain ⟨⟨ret, data, fPos⟩, hread, hs⟩ := hs
  cases hs
  refine ⟨rfl, ?_⟩
  obtain ⟨held, es, hr⟩ := h.tracks.ring
  rw [hr.aesdRead] at hread
  have hm := h.holder (by rw [hpc]; rfl)
  refine h.step_inside ⟨fun _ _ => rfl, fun _ _ => rfl, fun _ _ => rfl⟩ hm hm h.tracks
    rfl id h.follows rfl fun log₀ hins => ?_
  unfold Inside at hins
  rw [hpc] at hins
  obtain ⟨s', hopen, hserving⟩ := hins
  obtain rfl := Opened.eq ⟨file, hfile, hstream⟩ hopen
  show Inside (packets i) log₀ a.log (w.threads i) _ (w.outbox i)
  unfold Inside
  rw [hpc]
  refine ⟨_, ⟨file, hfile, Function.update_self _ _ _⟩, ?_⟩
  cases hserving with
  | printing _ _ _ hne => exact absurd hout hne
  | reading fill hlog hreading =>
      have hne : a.log.stored ≠ [] ∨ startPos log₀ fill (packets i).action = 0 := by
        rw [hlog]
        exact startPos_of_empty _ _ _
      obtain ⟨next, hnext, hread'⟩ :=
        hreading.refill hr.contents_lt (startPos_range _ _ _) hne hcount
      rw [hnext] at hread
      cases hread
      exact .reading fill hlog (hread'.of_eq rfl rfl rfl (by simp))

/-- **One step** keeps the invariant. -/
theorem Consistent.step (h : Consistent packets a₀ order w a) {act : Act ι}
    {out : Option (ι × Call)} (hs : w.step act = some (out, w')) :
    ∃ a', Consistent packets a₀ (order ++ lockOrder [out]) w' a' := by
  cases act with
  | call i n fill => exact ⟨a, h.step_call hs⟩
  | flush i n env =>
      obtain ⟨rfl, a', h'⟩ := h.step_flush hs
      exact ⟨a', by simpa [lockOrder] using h'⟩
  | refill i count =>
      obtain ⟨rfl, h'⟩ := h.step_refill hs
      exact ⟨a, by simpa [lockOrder] using h'⟩

/-- **Every run** of the system keeps the invariant. -/
theorem run_consistent (packets : ι → Packet) {driver : DriverState}
    (h : Tracks driver a₀) {acts : List (Act ι)} {outs : List (Option (ι × Call))}
    (hrun : run World.step (World.init driver fun i => (packets i).chunks) acts
      = some (outs, w)) :
    ∃ a, Consistent packets a₀ (lockOrder outs) w a := by
  refine run_history (P := fun _ outs w => ∃ a, Consistent packets a₀ (lockOrder outs) w a)
    ⟨a₀, consistent_init packets h⟩ ?_ hrun
  rintro acts outs w act out w' - ⟨a, ha⟩ hs
  rw [lockOrder_concat]
  exact ha.step hs

end

end Aesd.Server
