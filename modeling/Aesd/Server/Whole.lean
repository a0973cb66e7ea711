import Aesd.Server.Exclusion
import Aesd.Server.Liveness
import Aesd.Server.Shutdown

/-!
# The whole server

`main`, the threads it creates, the mutex, the clients, the streams and the
driver, all at once: `main` and the threads are the process, and what a
thread's call returns is what the system around the threads answers, which is
success. A run is a run of both (`Whole.run_process`, `Whole.run_world`), so what
holds of each holds of the server. When `main` is done, whatever it did and
whenever the signal came, every connection that got a thread was served to its
end (`server_done`).
-/

namespace Aesd.Server

open Aesd.Lib Aesd.Driver

/-! ## The machine -/

/-- The process, and the system its threads are in. A connection is named by
the `accept` that returned it. `world.threads` are the threads of the
connections, and stay when their entries are freed. -/
structure Whole where
  process : Process
  world : World Nat

/-- What happens: `main` goes on, a signal arrives, the pending call of thread
`tid` returns, or its stream writes or reads. -/
inductive WholeAct where
  | main (r : MainResp)
  | signal
  | call (tid n : Nat) (fill : Nat → UInt8)
  | flush (tid n : Nat) (env : WriteEnv)
  | refill (tid count : Nat)

/-- Before the first `accept`, with what the client of each connection will
send. -/
def Whole.init (driver : DriverState) (chunks : Nat → List (List UInt8)) : Whole :=
  ⟨.init, .init driver chunks⟩

/-- The connection of a descriptor. -/
def Fd.connection : Fd → Option Nat
  | .hSockfd => none
  | .client n => some n

/-- The connection of a thread: the descriptor in its entry. -/
def Process.connection (s : Process) (tid : Nat) : Option Nat := do
  let st ← s.threads[tid]?
  let node ← s.entries st.pArg
  node.val.hRecvfd.connection

/-- One step; the output is the call that returned, if one did. -/
def Whole.step (s : Whole) : WholeAct → Option (Option Event × Whole)
  | .main r => do
      let (out, process) ← s.process.step (.main r)
      return (out, { s with process })
  | .signal => do
      let (out, process) ← s.process.step .signal
      return (out, { s with process })
  | .call tid n fill => do
      let i ← s.process.connection tid
      let st ← s.process.threads[tid]?
      let call ← st.thread.call
      let (r, world) ← s.world.answer i n fill call
      let thread ← st.thread.resume r
      let (out, process) ← s.process.step (.thread tid r)
      return (out, ⟨process, world.setThread i thread⟩)
  | .flush tid n env => do
      let i ← s.process.connection tid
      let (_, world) ← s.world.step (.flush i n env)
      return (none, { s with world })
  | .refill tid count => do
      let i ← s.process.connection tid
      let (_, world) ← s.world.step (.refill i count)
      return (none, { s with world })

/-- The call a thread made, by its connection. -/
def Event.connectionCall : Event → Option (Nat × Call)
  | .thread _ fd call => fd.connection.map fun i => (i, call)
  | .main _ => none

/-- The calls of the threads in a run. -/
def connectionCalls (outs : List (Option Event)) : List (Nat × Call) :=
  outs.filterMap fun out => out.bind Event.connectionCall

/-- The connections that gave the mutex back, in order. -/
def unlockOrder (calls : List (Nat × Call)) : List Nat :=
  (calls.filter fun c => c.2 = .pthreadMutexUnlock).map Prod.fst

/-! ## Threads and connections -/

/-- Thread `tid`, which is at `t` and has not ended, has connection `i`. -/
def Process.Handles (s : Process) (tid i : Nat) (t : Thread) : Prop :=
  ∃ pArg node, s.threads[tid]? = some ⟨pArg, t⟩ ∧ t.pc ≠ .done ∧
    s.entries pArg = some node ∧ node.val.hRecvfd = .client i

section
variable {s s' : Process} {r : MainResp} {tid i : Nat} {t : Thread}

theorem Process.Handles.connection (h : s.Handles tid i t) : s.connection tid = some i := by
  obtain ⟨pArg, node, hst, -, hnode, hfd⟩ := h
  simp [Process.connection, hst, hnode, hfd, Fd.connection]

theorem Process.Handles.of_connection {st : ServiceThread} (hconn : s.connection tid = some i)
    (hst : s.threads[tid]? = some st) (hne : st.thread.pc ≠ .done) :
    s.Handles tid i st.thread := by
  simp only [Process.connection, hst, Option.bind_eq_bind, Option.bind_some,
    Option.bind_eq_some_iff] at hconn
  obtain ⟨node, hnode, hfd⟩ := hconn
  refine ⟨st.pArg, node, hst, hne, hnode, ?_⟩
  cases hrecv : node.val.hRecvfd with
  | hSockfd =>
      rw [hrecv] at hfd
      cases hfd
  | client n =>
      rw [hrecv] at hfd
      cases hfd
      rfl

/-- One thread, one connection. -/
theorem Process.Handles.unique {j : Nat} {u : Thread} (h : s.Handles tid i t)
    (h' : s.Handles tid j u) : i = j ∧ t = u := by
  obtain ⟨pArg, node, hst, -, hnode, hfd⟩ := h
  obtain ⟨pArg', node', hst', -, hnode', hfd'⟩ := h'
  rw [hst] at hst'
  cases hst'
  rw [hnode] at hnode'
  cases hnode'
  rw [hfd] at hfd'
  cases hfd'
  exact ⟨rfl, rfl⟩

/-- **A step of `main`** leaves the threads their connections. -/
theorem MainStep.handles (hs : MainStep s r s') (hlive : Live s) (h : s.Handles tid i t) :
    s'.Handles tid i t := by
  obtain ⟨pArg, node, hst, hne, hnode, hfd⟩ := h
  cases hs with
  | quiet hup hup' hthreads hvals hopen haccepted hjoined =>
      obtain ⟨node', hnode', hval⟩ := hvals.node hnode
      exact ⟨pArg, node', hthreads ▸ hst, hne, hnode', by rw [hval, hfd]⟩
  | accepted hpc => exact ⟨pArg, node, hst, hne, hnode, hfd⟩
  | gaveUp hpc => exact ⟨pArg, node, hst, hne, hnode, hfd⟩
  | noThread hpc => exact ⟨pArg, node, hst, hne, hnode, hfd⟩
  | @entry fd p _ hpc hp hs =>
      subst hs
      have hother : pArg ≠ p := by
        rintro rfl
        rw [hp] at hnode
        cases hnode
      exact ⟨pArg, node, hst, hne, (Function.update_of_ne hother ..).trans hnode, hfd⟩
  | @thread fd p _ _ hpc hp hup' hfree hthreads hvals hopen haccepted =>
      have hother := hlive.apart p (.inr ⟨fd, hpc⟩) tid _ hst hne
      obtain ⟨node', hnode', hval⟩ := hvals.node
        ((Function.update_of_ne hother ..).trans hnode)
      refine ⟨pArg, node', ?_, hne, hnode', by rw [hval, hfd]⟩
      obtain ⟨hlt, -⟩ := List.getElem?_eq_some_iff.mp hst
      rw [hthreads, List.getElem?_append_left hlt, hst]
  | @freed _ p _ hpc hup' hfree hs =>
      have hother := hlive.apart p (.inl hpc) tid _ hst hne
      rw [hs]
      exact ⟨pArg, node, hst, hne, (Function.update_of_ne hother ..).trans hnode, hfd⟩

/-- A thread that has a connection after a step of `main` had it before, or is new
and has the one `main` was setting up. -/
theorem MainStep.handles_of (hs : MainStep s r s') (hlive : Live s)
    (h : s'.Handles tid i t) : s.Handles tid i t ∨
      tid = s.threads.length ∧ t = .init ∧ s.pc.settingUp = some (.client i) ∧
        s'.pc.settingUp = none := by
  obtain ⟨pArg, node', hst, hne, hnode', hfd⟩ := h
  -- an entry that holds what it did before
  have hkept : ∀ {pArg' : Nat}, s.threads[tid]? = some ⟨pArg', t⟩ → pArg' = pArg →
      (∀ node, s.entries pArg' = some node → ∃ node'', s'.entries pArg' = some node'' ∧
        node''.val.hRecvfd = node.val.hRecvfd) → s.Handles tid i t := by
    rintro _ hst' rfl hkeep
    obtain ⟨node, hnode, -⟩ := hlive.own tid _ hst' hne
    obtain ⟨node'', hnode'', hsame⟩ := hkeep node hnode
    rw [hnode'] at hnode''
    cases hnode''
    exact ⟨_, node, hst', hne, hnode, by rw [← hsame, hfd]⟩
  cases hs with
  | quiet hup hup' hthreads hvals hopen haccepted hjoined =>
      refine .inl (hkept (hthreads ▸ hst) rfl fun node hnode => ?_)
      obtain ⟨node'', hnode'', hval⟩ := hvals.node hnode
      exact ⟨node'', hnode'', by rw [hval]⟩
  | accepted hpc => exact .inl (hkept hst rfl fun node hnode => ⟨node, hnode, rfl⟩)
  | gaveUp hpc => exact .inl (hkept hst rfl fun node hnode => ⟨node, hnode, rfl⟩)
  | noThread hpc => exact .inl (hkept hst rfl fun node hnode => ⟨node, hnode, rfl⟩)
  | @entry fd p _ hpc hp hs =>
      subst hs
      refine .inl (hkept hst rfl fun node hnode => ⟨node, ?_, rfl⟩)
      have hother : pArg ≠ p := by
        rintro rfl
        rw [hp] at hnode
        cases hnode
      exact (Function.update_of_ne hother ..).trans hnode
  | @thread fd p old _ hpc hp hup' hfree hthreads hvals hopen haccepted =>
      rw [hthreads, List.getElem?_append] at hst
      split at hst
      · have hother := hlive.apart p (.inr ⟨fd, hpc⟩) tid _ hst hne
        refine .inl (hkept hst rfl fun node hnode => ?_)
        obtain ⟨node'', hnode'', hval⟩ := hvals.node
          ((Function.update_of_ne hother ..).trans hnode)
        exact ⟨node'', hnode'', by rw [hval]⟩
      · rename_i hlt
        rw [List.getElem?_singleton] at hst
        split at hst <;> cases hst
        -- the new thread has the entry that was set up
        obtain ⟨node₀, hnode₀, hfd₀⟩ := hlive.setUp fd _ hpc
        rw [hp] at hnode₀
        cases hnode₀
        obtain ⟨node'', hnode'', hval⟩ := hvals.node (Function.update_self ..)
        rw [hnode'] at hnode''
        cases hnode''
        refine .inr ⟨by omega, rfl, ?_, hup'⟩
        rw [hpc, ← hfd, hval, ← hfd₀]
        rfl
  | @freed _ p _ hpc hup' hfree hs =>
      rw [hs] at hst hnode'
      have hother := hlive.apart p (.inl hpc) tid _ hst hne
      have hnode₀ : Function.update s.entries p none pArg = s.entries pArg :=
        Function.update_of_ne hother ..
      refine .inl ⟨pArg, node', hst, hne, hnode₀.symm.trans hnode', hfd⟩

/-- A call of a thread: the thread goes on with its connection, or ends. -/
theorem Process.threadStep_handles {resp : Resp} {event : Event} {call : Call} {u : Thread}
    (hs : s.threadStep tid resp = some (event, s')) (h : s.Handles tid i t)
    (hstep : t.step resp = some (call, u)) :
    event = .thread tid (.client i) call ∧ s'.pc = s.pc ∧ s'.accepted = s.accepted ∧
      s'.bAcceptConnections = s.bAcceptConnections ∧
      (∀ j, s'.threads[j]?.map ServiceThread.thread
        = if j = tid then some u else s.threads[j]?.map ServiceThread.thread) ∧
      ∀ j k v, s'.Handles j k v ↔
        j = tid ∧ k = i ∧ v = u ∧ u.pc ≠ .done ∨ j ≠ tid ∧ s.Handles j k v := by
  obtain ⟨pArg, node, hst, hne, hnode, hfd⟩ := h
  obtain ⟨hlt, -⟩ := List.getElem?_eq_some_iff.mp hst
  simp only [Process.threadStep, hst, hnode, hstep, Option.bind_eq_bind, Option.bind_some] at hs
  cases hs
  -- an entry keeps its descriptor
  have hkeep : ∀ q, ((if u.pc = .done then Function.update s.entries pArg
        (some { node with val := { node.val with bIsThreadComplete := true } })
      else s.entries) q).map (fun n => n.val.hRecvfd)
        = (s.entries q).map (fun n => n.val.hRecvfd) := by
    intro q
    split
    · by_cases hq : q = pArg
      · subst hq
        simp [hnode]
      · rw [Function.update_of_ne hq]
    · rfl
  refine ⟨by rw [hfd], rfl, rfl, rfl, fun j => ?_, fun j k v => ?_⟩
  · show (s.threads.set tid ⟨pArg, u⟩)[j]?.map ServiceThread.thread = _
    by_cases hj : j = tid
    · subst hj
      simp [hlt]
    · rw [List.getElem?_set_ne (Ne.symm hj), if_neg hj]
  · have hfds : ∀ q k, (∃ n, (if u.pc = .done then Function.update s.entries pArg
          (some { node with val := { node.val with bIsThreadComplete := true } })
        else s.entries) q = some n ∧ n.val.hRecvfd = .client k) ↔
        ∃ n, s.entries q = some n ∧ n.val.hRecvfd = .client k := by
      intro q k
      rw [← Option.map_eq_some_iff, hkeep, Option.map_eq_some_iff]
    by_cases hj : j = tid
    · subst hj
      constructor
      · rintro ⟨q, n, hq, hne', hn⟩
        have hq : (s.threads.set j ⟨pArg, u⟩)[j]? = some ⟨q, v⟩ := hq
        rw [List.getElem?_set_self hlt] at hq
        cases hq
        obtain ⟨n', hn', hfd'⟩ := (hfds _ _).mp ⟨n, hn⟩
        rw [hnode] at hn'
        cases hn'
        rw [hfd] at hfd'
        cases hfd'
        exact .inl ⟨rfl, rfl, rfl, hne'⟩
      · rintro (⟨-, rfl, rfl, hne'⟩ | ⟨hj, -⟩)
        · obtain ⟨n, hn⟩ := (hfds _ _).mpr ⟨node, hnode, hfd⟩
          exact ⟨pArg, n, List.getElem?_set_self hlt, hne', hn⟩
        · exact absurd rfl hj
    · have hsame : (s.threads.set tid ⟨pArg, u⟩)[j]? = s.threads[j]? :=
        List.getElem?_set_ne (Ne.symm hj)
      constructor
      · rintro ⟨q, n, hq, hne', hn⟩
        obtain ⟨n', hn'⟩ := (hfds _ _).mp ⟨n, hn⟩
        exact .inr ⟨hj, q, n', hsame.symm.trans hq, hne', hn'⟩
      · rintro (⟨rfl, -⟩ | ⟨-, q, n, hq, hne', hn⟩)
        · exact absurd rfl hj
        · obtain ⟨n', hn'⟩ := (hfds _ _).mpr ⟨n, hn⟩
          exact ⟨q, n', hsame.trans hq, hne', hn'⟩

end

/-- What a step of `main` does to the connection it sets up: it goes on with it or
leaves it, or accepts the next. -/
theorem MainStep.setUp {s s' : Process} {r : MainResp} (hs : MainStep s r s') :
    s'.accepted = s.accepted ∧
        (s'.pc.settingUp = none ∨ s'.pc.settingUp = s.pc.settingUp) ∨
      s'.accepted = s.accepted + 1 ∧ s'.pc.settingUp = some (.client s.accepted) := by
  cases hs with
  | quiet hup hup' hthreads hvals hopen haccepted => exact .inl ⟨haccepted, .inl hup'⟩
  | accepted hpc => exact .inr ⟨rfl, rfl⟩
  | gaveUp hpc => exact .inl ⟨rfl, .inl rfl⟩
  | entry hpc hp hs =>
      subst hs
      exact .inl ⟨rfl, .inr (by rw [hpc]; rfl)⟩
  | thread hpc hp hup' hfree hthreads hvals hopen haccepted => exact .inl ⟨haccepted, .inl hup'⟩
  | noThread hpc => exact .inl ⟨rfl, .inr (by rw [hpc]; rfl)⟩
  | freed hpc hup' hfree hs =>
      refine .inl ⟨?_, .inl hup'⟩
      rw [hs]

/-- A thread after a step of `main` was there before, or is new and has the connection
that was set up. -/
theorem MainStep.thread_of {s s' : Process} {r : MainResp} {tid : Nat} {st : ServiceThread}
    (hs : MainStep s r s') (hlive : Live s) (hst : s'.threads[tid]? = some st) :
    s.threads[tid]? = some st ∨ ∃ fd, s.pc.settingUp = some fd ∧
      ∀ i, fd = .client i → s'.Handles tid i st.thread := by
  cases hs with
  | quiet hup hup' hthreads => exact .inl (hthreads ▸ hst)
  | @thread fd p node _ hpc hp hup' hfree hthreads hvals =>
      rw [hthreads, List.getElem?_append] at hst
      split at hst
      · exact .inl hst
      · rename_i hlt
        rw [List.getElem?_singleton] at hst
        split at hst <;> cases hst
        obtain ⟨node₀, hnode₀, hfd⟩ := hlive.setUp fd _ hpc
        rw [hp] at hnode₀
        cases hnode₀
        obtain ⟨node', hnode', hval⟩ := hvals.node (Function.update_self ..)
        refine .inr ⟨fd, by rw [hpc]; rfl, ?_⟩
        rintro i rfl
        have htid : tid = s.threads.length := by omega
        refine ⟨p, node', ?_, by simp [Thread.init], hnode', by rw [hval, hfd]⟩
        rw [hthreads, htid, List.getElem?_concat_length]
  | entry hpc hp hs =>
      subst hs
      exact .inl hst
  | freed hpc hup' hfree hs =>
      rw [hs] at hst
      exact .inl hst
  | accepted hpc => exact .inl hst
  | gaveUp hpc => exact .inl hst
  | noThread hpc => exact .inl hst

/-! ## The two agree -/

/-- The threads of the process are those of the world. A connection that has none is
at the start, or its thread has ended. -/
structure Agrees (s : Whole) : Prop where
  live : Live s.process
  handles : ∀ (tid : Nat) (st : ServiceThread), s.process.threads[tid]? = some st →
    st.thread.pc ≠ .done → ∃ i, s.process.Handles tid i st.thread
  same : ∀ tid i t, s.process.Handles tid i t →
    i < s.process.accepted ∧ s.world.threads i = t
  apart : ∀ tid tid' i t t', s.process.Handles tid i t → s.process.Handles tid' i t' →
    tid = tid'
  setUp : ∀ fd, s.process.pc.settingUp = some fd → ∃ i, fd = .client i ∧
    i < s.process.accepted ∧ s.world.threads i = .init ∧ ∀ tid t, ¬ s.process.Handles tid i t
  fresh : ∀ i, s.process.accepted ≤ i → s.world.threads i = .init
  others : ∀ i, s.world.threads i = .init ∨ (s.world.threads i).pc = .done ∨
    ∃ tid t, s.process.Handles tid i t

theorem agrees_init (driver : DriverState) (chunks : Nat → List (List UInt8)) :
    Agrees (.init driver chunks) where
  live := live_init
  handles := fun tid st hst => (by cases hst)
  same := fun tid i t ⟨pArg, node, hst, _⟩ => (by cases hst)
  apart := fun tid tid' i t t' ⟨pArg, node, hst, _⟩ => (by cases hst)
  setUp := fun fd hfd => (by cases hfd)
  fresh := fun _ _ => rfl
  others := fun _ => .inl rfl

/-- A step of the whole server, by the machine that makes it. -/
inductive WholeStep (s : Whole) : WholeAct → Option Event → Whole → Prop where
  | main {r : MainResp} {process : Process} (hs : s.process.resume r = some process) :
      WholeStep s (.main r) (s.process.mainCall.map .main) { s with process }
  | signal : WholeStep s .signal none
      { s with process := { s.process with bAcceptConnections := false } }
  | call {tid n i : Nat} {fill : Nat → UInt8} {t u : Thread} {call : Call} {r : Resp}
      {world : World Nat} {process : Process} (hhandles : s.process.Handles tid i t)
      (hans : s.world.answer i n fill call = some (r, world)) (hstep : t.step r = some (call, u))
      (hs : s.process.threadStep tid r = some (.thread tid (.client i) call, process)) :
      WholeStep s (.call tid n fill) (some (.thread tid (.client i) call))
        ⟨process, world.setThread i u⟩
  | stream {act : WholeAct} {wact : Act Nat} {world : World Nat} (hact : act ≠ .signal)
      (hs : s.world.step wact = some (none, world))
      (hthreads : world.threads = s.world.threads) : WholeStep s act none { s with world }

/-- What a write or a read of a stream leaves alone. -/
structure StreamMoves (w : World Nat) (i : Nat) (out : Option (Nat × Call)) (w' : World Nat) :
    Prop where
  pc : (w.threads i).pc = .getline
  quiet : out = none
  threads : w'.threads = w.threads
  inbox : w'.inbox = w.inbox
  outbox : w'.outbox = w.outbox

theorem World.step_flush {w w' : World Nat} {i n : Nat} {env : WriteEnv}
    {out : Option (Nat × Call)} (h : w.step (.flush i n env) = some (out, w')) :
    StreamMoves w i out w' := by
  simp only [World.step, Option.bind_eq_bind, Option.bind_eq_some_iff] at h
  obtain ⟨file, -, st, -, h⟩ := h
  split at h
  case isFalse => cases h
  rename_i hcond
  simp only [Option.bind_eq_some_iff] at h
  obtain ⟨⟨ret, driver⟩, -, h⟩ := h
  split at h <;> cases h
  exact ⟨hcond.1, rfl, rfl, rfl, rfl⟩

theorem World.step_refill {w w' : World Nat} {i count : Nat}
    {out : Option (Nat × Call)} (h : w.step (.refill i count) = some (out, w')) :
    StreamMoves w i out w' := by
  simp only [World.step, Option.bind_eq_bind, Option.bind_eq_some_iff] at h
  obtain ⟨file, -, st, -, h⟩ := h
  split at h
  case isFalse => cases h
  rename_i hcond
  simp only [Option.bind_eq_some_iff] at h
  obtain ⟨⟨ret, data, fPos⟩, -, h⟩ := h
  cases h
  exact ⟨hcond.1, rfl, rfl, rfl, rfl⟩

section
variable {s s' : Whole} {act : WholeAct} {out : Option Event}

/-- **A step of the server** is one of these. -/
theorem Whole.step_cases (h : s.step act = some (out, s')) : WholeStep s act out s' := by
  cases act with
  | main r =>
      simp only [Whole.step, Process.step, Option.bind_eq_bind, Option.bind_eq_some_iff] at h
      obtain ⟨_, ⟨process, hs, hp⟩, h⟩ := h
      cases hp
      cases h
      exact .main hs
  | signal =>
      cases h
      exact .signal
  | call tid n fill =>
      simp only [Whole.step, Process.step, Option.bind_eq_bind, Option.bind_eq_some_iff] at h
      obtain ⟨i, hconn, st, hst, call, hcall, ⟨r, world⟩, hans, u, hres, _,
        ⟨⟨event, process⟩, hs, hp⟩, h⟩ := h
      cases hp
      cases h
      have hstep : st.thread.step r = some (call, u) := Thread.step_eq_some.mpr ⟨hcall, hres⟩
      have hhandles := Process.Handles.of_connection hconn hst (Thread.step_ne_done hstep)
      obtain ⟨rfl, -⟩ := Process.threadStep_handles hs hhandles hstep
      exact .call hhandles hans hstep hs
  | flush tid n env =>
      simp only [Whole.step, Option.bind_eq_bind, Option.bind_eq_some_iff] at h
      obtain ⟨i, -, ⟨out', world⟩, hs, h⟩ := h
      cases h
      have hmoves := World.step_flush hs
      obtain rfl := hmoves.quiet
      exact .stream (by simp) hs hmoves.threads
  | refill tid count =>
      simp only [Whole.step, Option.bind_eq_bind, Option.bind_eq_some_iff] at h
      obtain ⟨i, -, ⟨out', world⟩, hs, h⟩ := h
      cases h
      have hmoves := World.step_refill hs
      obtain rfl := hmoves.quiet
      exact .stream (by simp) hs hmoves.threads

theorem Agrees.main (h : Agrees s) {r : MainResp} {process : Process}
    (hs : MainStep s.process r process) : Agrees { s with process } := by
  have hlive := h.live.main hs
  have haccepted : s.process.accepted ≤ process.accepted := by
    rcases hs.setUp with ⟨heq, -⟩ | ⟨heq, -⟩ <;> omega
  -- a new thread has the connection that had none
  have hnew : ∀ {tid i : Nat} {t : Thread}, process.Handles tid i t →
      s.process.Handles tid i t ∨ tid = s.process.threads.length ∧ t = .init ∧
        i < s.process.accepted ∧ s.world.threads i = .init ∧
        (∀ tid t, ¬ s.process.Handles tid i t) ∧ process.pc.settingUp = none := by
    intro tid i t hhandles
    rcases hs.handles_of h.live hhandles with hold | ⟨htid, ht, hset, hnone⟩
    · exact .inl hold
    · obtain ⟨i', hi', hlt, hinit, hno⟩ := h.setUp _ hset
      cases hi'
      exact .inr ⟨htid, ht, hlt, hinit, hno, hnone⟩
  constructor
  case live => exact hlive
  case handles =>
    intro tid st hst hne
    rcases hs.thread_of h.live hst with hold | ⟨fd, hset, hhas⟩
    · obtain ⟨i, hi⟩ := h.handles tid st hold hne
      exact ⟨i, hs.handles h.live hi⟩
    · obtain ⟨i, rfl, -⟩ := h.setUp fd hset
      exact ⟨i, hhas i rfl⟩
  case same =>
    intro tid i t hhandles
    rcases hnew hhandles with hold | ⟨-, rfl, hlt, hinit, -⟩
    · obtain ⟨hlt, hsame⟩ := h.same tid i t hold
      exact ⟨Nat.lt_of_lt_of_le hlt haccepted, hsame⟩
    · exact ⟨Nat.lt_of_lt_of_le hlt haccepted, hinit⟩
  case apart =>
    intro tid tid' i t t' hhandles hhandles'
    rcases hnew hhandles with hold | ⟨htid, -, -, -, hno, -⟩
    · rcases hnew hhandles' with hold' | ⟨-, -, -, -, hno', -⟩
      · exact h.apart tid tid' i t t' hold hold'
      · exact absurd hold (hno' tid t)
    · rcases hnew hhandles' with hold' | ⟨htid', -⟩
      · exact absurd hold' (hno tid' t')
      · rw [htid, htid']
  case setUp =>
    intro fd hfd
    have hfd : process.pc.settingUp = some fd := hfd
    rcases hs.setUp with ⟨heq, hnone | hsame⟩ | ⟨heq, hset⟩
    · rw [hnone] at hfd
      cases hfd
    · obtain ⟨i, hi, hlt, hinit, hno⟩ := h.setUp fd (hsame ▸ hfd)
      refine ⟨i, hi, Nat.lt_of_lt_of_le hlt haccepted, hinit, fun tid t hhandles => ?_⟩
      rcases hnew hhandles with hold | ⟨-, -, -, -, -, hnone⟩
      · exact hno tid t hold
      · rw [hnone] at hfd
        cases hfd
    · rw [hset] at hfd
      cases hfd
      refine ⟨_, rfl, ?_, h.fresh _ (Nat.le_refl _), fun tid t hhandles => ?_⟩
      · show s.process.accepted < process.accepted
        omega
      · rcases hnew hhandles with hold | ⟨-, -, hlt, -⟩
        · exact Nat.lt_irrefl _ (h.same tid _ t hold).1
        · exact Nat.lt_irrefl _ hlt
  case fresh => exact fun i hi => h.fresh i (Nat.le_trans haccepted hi)
  case others =>
    intro i
    rcases h.others i with hinit | hdone | ⟨tid, t, hhandles⟩
    · exact .inl hinit
    · exact .inr (.inl hdone)
    · exact .inr (.inr ⟨tid, t, hs.handles h.live hhandles⟩)

/-- **A call of a thread returns**, to the thread and to its connection. -/
theorem Agrees.call (h : Agrees s) {tid n i : Nat} {fill : Nat → UInt8} {t u : Thread}
    {call : Call} {r : Resp} {world : World Nat} {process : Process} {event : Event}
    (hhandles : s.process.Handles tid i t)
    (hans : s.world.answer i n fill call = some (r, world)) (hstep : t.step r = some (call, u))
    (hs : s.process.threadStep tid r = some (event, process)) :
    Agrees ⟨process, world.setThread i u⟩ := by
  obtain ⟨-, hpc, haccepted, -, hthreads, hiff⟩ := Process.threadStep_handles hs hhandles hstep
  have hworld : ∀ j, j ≠ i → (world.setThread i u).threads j = s.world.threads j :=
    (World.answer_same hans u).threads
  have hself : (world.setThread i u).threads i = u := World.setThread_self ..
  have hi := (h.same tid i t hhandles).1
  -- another thread has another connection
  have hother : ∀ {j k : Nat} {v : Thread}, j ≠ tid → s.process.Handles j k v → k ≠ i := by
    rintro j k v hj hv rfl
    exact hj (h.apart j tid k v t hv hhandles)
  constructor
  case live => exact h.live.threadStep hs
  case handles =>
    intro j st hst hne
    have hj := hthreads j
    rw [hst, Option.map_some] at hj
    split at hj
    · rename_i hjt
      cases hj
      exact ⟨i, (hiff j i _).mpr (.inl ⟨hjt, rfl, rfl, hne⟩)⟩
    · rename_i hjt
      obtain ⟨st', hst', hsame⟩ := Option.map_eq_some_iff.mp hj.symm
      rw [← hsame] at hne ⊢
      obtain ⟨k, hk⟩ := h.handles j st' hst' hne
      exact ⟨k, (hiff j k _).mpr (.inr ⟨hjt, hk⟩)⟩
  case same =>
    intro j k v hv
    show k < process.accepted ∧ _
    rw [haccepted]
    rcases (hiff j k v).mp hv with ⟨-, rfl, rfl, -⟩ | ⟨hj, hold⟩
    · exact ⟨hi, hself⟩
    · obtain ⟨hlt, hsame⟩ := h.same j k v hold
      exact ⟨hlt, (hworld k (hother hj hold)).trans hsame⟩
  case apart =>
    intro j j' k v v' hv hv'
    rcases (hiff j k v).mp hv with ⟨rfl, rfl, -⟩ | ⟨hj, hold⟩
    · rcases (hiff j' k v').mp hv' with ⟨rfl, -⟩ | ⟨hj', hold'⟩
      · rfl
      · exact absurd rfl (hother hj' hold')
    · rcases (hiff j' k v').mp hv' with ⟨rfl, rfl, -⟩ | ⟨hj', hold'⟩
      · exact absurd rfl (hother hj hold)
      · exact h.apart j j' k v v' hold hold'
  case setUp =>
    intro fd hfd
    have hfd : process.pc.settingUp = some fd := hfd
    rw [hpc] at hfd
    obtain ⟨k, hk, hlt, hinit, hno⟩ := h.setUp fd hfd
    have hki : k ≠ i := by
      rintro rfl
      exact hno tid t hhandles
    refine ⟨k, hk, ?_, (hworld k hki).trans hinit, fun j v hv => ?_⟩
    · show k < process.accepted
      rw [haccepted]
      exact hlt
    · rcases (hiff j k v).mp hv with ⟨-, hk, -⟩ | ⟨-, hold⟩
      · exact hki hk
      · exact hno j v hold
  case fresh =>
    intro k hk
    have hk : process.accepted ≤ k := hk
    rw [haccepted] at hk
    exact (hworld k (by omega)).trans (h.fresh k hk)
  case others =>
    intro k
    by_cases hki : k = i
    · subst hki
      rw [hself]
      by_cases hdone : u.pc = .done
      · exact .inr (.inl hdone)
      · exact .inr (.inr ⟨tid, u, (hiff tid k u).mpr (.inl ⟨rfl, rfl, rfl, hdone⟩)⟩)
    · rw [hworld k hki]
      rcases h.others k with hinit | hdone | ⟨j, v, hv⟩
      · exact .inl hinit
      · exact .inr (.inl hdone)
      · refine .inr (.inr ⟨j, v, (hiff j k v).mpr (.inr ⟨?_, hv⟩)⟩)
        rintro rfl
        exact hki (hv.unique hhandles).1

/-- **The threads of the process and those of the world go on together.** -/
theorem Agrees.step (h : Agrees s) (hs : s.step act = some (out, s')) : Agrees s' := by
  cases Whole.step_cases hs with
  | main hresume => exact h.main (Process.resume_mainStep hresume)
  | signal =>
      exact ⟨⟨h.live.own, h.live.setUp, h.live.apart⟩, h.handles, h.same, h.apart, h.setUp,
        h.fresh, h.others⟩
  | call hhandles hans hstep hthread => exact h.call hhandles hans hstep hthread
  | stream hact hworld hthreads =>
      refine ⟨h.live, h.handles, ?_, h.apart, ?_, ?_, ?_⟩
      · intro tid i t hhandles
        rw [hthreads]
        exact h.same tid i t hhandles
      · intro fd hfd
        rw [hthreads]
        exact h.setUp fd hfd
      · intro i hi
        rw [hthreads]
        exact h.fresh i hi
      · intro i
        rw [hthreads]
        exact h.others i

/-! ## A run is a run of both -/

/-- The process of a run of the server is one of a run of the process. -/
theorem Whole.run_process {driver : DriverState} {chunks : Nat → List (List UInt8)}
    {acts : List WholeAct} {outs : List (Option Event)}
    (h : run Whole.step (.init driver chunks) acts = some (outs, s)) :
    ∃ acts' outs', run Process.step .init acts' = some (outs', s.process) ∧
      outs'.flatMap Option.toList = outs.flatMap Option.toList := by
  have hsim : ∃ acts' outs' p, run Process.step .init acts' = some (outs', p) ∧
      outs'.flatMap Option.toList = outs.flatMap Option.toList ∧ p = s.process := by
    refine run_simulates (R := fun (s : Whole) p => p = s.process) ?_ rfl h
    rintro s _ act out s' rfl hs
    cases Whole.step_cases hs with
    | @main r process hresume =>
        refine ⟨[.main r], [s.process.mainCall.map .main], process, ?_, ?_, rfl⟩
        · exact run_cons.mpr ⟨_, _, [], by simp [Process.step, hresume], rfl, rfl⟩
        · simp
    | signal =>
        refine ⟨[.signal], [none], { s.process with bAcceptConnections := false }, ?_, rfl, rfl⟩
        exact run_cons.mpr ⟨_, _, [], rfl, rfl, rfl⟩
    | @call tid n i fill t u call r world process hhandles hans hstep hthread =>
        refine ⟨[.thread tid r], [some (.thread tid (.client i) call)], process, ?_, rfl, rfl⟩
        exact run_cons.mpr ⟨_, _, [], by simp [Process.step, hthread], rfl, rfl⟩
    | stream hact hworld hthreads => exact ⟨[], [], s.process, rfl, rfl, rfl⟩
  obtain ⟨acts', outs', _, hrun, hseen, rfl⟩ := hsim
  exact ⟨acts', outs', hrun, hseen⟩

theorem connectionCalls_eq (outs : List (Option Event)) :
    connectionCalls outs = outs.flatMap fun out => (out.bind Event.connectionCall).toList := by
  rw [connectionCalls, List.filterMap_eq_flatMap_toList]

/-- The world of a run of the server is one of a run of the system. -/
theorem Whole.run_world {driver : DriverState} {chunks : Nat → List (List UInt8)}
    {acts : List WholeAct} {outs : List (Option Event)}
    (h : run Whole.step (.init driver chunks) acts = some (outs, s)) :
    Agrees s ∧ ∃ acts' outs', run World.step (.init driver chunks) acts' = some (outs', s.world) ∧
      outs'.flatMap Option.toList = connectionCalls outs := by
  have hsim : ∃ acts' outs' w, run World.step (.init driver chunks) acts' = some (outs', w) ∧
      outs'.flatMap Option.toList
        = outs.flatMap (fun out => (out.bind Event.connectionCall).toList) ∧
      w = s.world ∧ Agrees s := by
    refine run_simulates (R := fun (s : Whole) w => w = s.world ∧ Agrees s) ?_
      ⟨rfl, agrees_init driver chunks⟩ h
    rintro s _ act out s' ⟨rfl, hagrees⟩ hs
    have hagrees' := hagrees.step hs
    cases Whole.step_cases hs with
    | @main r process hresume =>
        refine ⟨[], [], s.world, rfl, ?_, rfl, hagrees'⟩
        cases s.process.mainCall <;> rfl
    | signal => exact ⟨[], [], s.world, rfl, rfl, rfl, hagrees'⟩
    | @call tid n i fill t u call r world process hhandles hans hstep hthread =>
        refine ⟨[.call i n fill], [some (i, call)], world.setThread i u, ?_, rfl, rfl, hagrees'⟩
        refine run_cons.mpr ⟨_, _, [], World.step_of ?_ hans, rfl, rfl⟩
        rw [(hagrees.same tid i t hhandles).2]
        exact Thread.step_cases hstep
    | @stream _ wact world hact hworld hthreads =>
        refine ⟨[wact], [none], world, ?_, rfl, rfl, hagrees'⟩
        exact run_cons.mpr ⟨_, _, [], hworld, rfl, rfl⟩
  obtain ⟨acts', outs', _, hrun, hseen, rfl, hagrees⟩ := hsim
  exact ⟨hagrees, acts', outs', hrun, by rw [hseen, connectionCalls_eq]⟩

/-! ## Connections without a thread -/

theorem Thread.step_ne_inetNtop {t u : Thread} {call : Call} {r : Resp}
    (h : t.step r = some (call, u)) : u.pc ≠ .inetNtop := by
  cases Thread.step_cases h with
  | received hpc hlen hr =>
      obtain ⟨_, _, hpc'⟩ := Thread.received_pc hr
      simp [hpc']
  | reallocated hpc hr =>
      obtain ⟨-, hpc' | hpc'⟩ := Thread.reallocated_pc hr <;> simp [hpc']
  | notOpened hpc hr | opened hpc hr =>
      obtain ⟨-, ⟨_, hpc'⟩ | ⟨_, hpc'⟩⟩ := Thread.opened_pc hr <;> simp [hpc']
  | @line line hpc | @sent line total n hpc hn =>
      intro hpc'
      unfold Thread.sendLoop at hpc'
      dsimp only at hpc'
      split at hpc' <;> cases hpc'
  | _ => exact fun hpc' => (by cases hpc')

/-- **A connection with no call** is as it was: nothing was received and nothing
sent. -/
theorem World.run_quiet {driver : DriverState} {chunks : Nat → List (List UInt8)}
    {acts : List (Act Nat)} {outs : List (Option (Nat × Call))} {w : World Nat}
    (h : run World.step (.init driver chunks) acts = some (outs, w)) (i : Nat) :
    ((w.threads i).pc = .inetNtop ↔ ∀ call, (i, call) ∉ outs.flatMap Option.toList) ∧
      ((w.threads i).pc = .inetNtop → w.inbox i = chunks i ∧ w.outbox i = []) := by
  refine run_history (P := fun _ outs w =>
    ((w.threads i).pc = .inetNtop ↔ ∀ call, (i, call) ∉ outs.flatMap Option.toList) ∧
      ((w.threads i).pc = .inetNtop → w.inbox i = chunks i ∧ w.outbox i = [])) ?_ ?_ h
  · exact ⟨⟨fun _ call hmem => (by cases hmem), fun _ => rfl⟩, fun _ => ⟨rfl, rfl⟩⟩
  · rintro acts outs w act out w' - ⟨hiff, hquiet⟩ hs
    rw [List.flatMap_append, List.flatMap_singleton]
    -- nothing of the connection moves
    have hstays : (∀ call, (i, call) ∉ out.toList) → w'.threads i = w.threads i →
        w'.inbox i = w.inbox i → w'.outbox i = w.outbox i →
        ((w'.threads i).pc = .inetNtop ↔
          ∀ call, (i, call) ∉ outs.flatMap Option.toList ++ out.toList) ∧
        ((w'.threads i).pc = .inetNtop → w'.inbox i = chunks i ∧ w'.outbox i = []) := by
      intro hout hthread hinbox houtbox
      rw [hthread, hinbox, houtbox]
      refine ⟨?_, hquiet⟩
      rw [hiff]
      apply forall_congr'
      intro call
      rw [List.mem_append, not_or]
      exact ⟨fun hno => ⟨hno, hout call⟩, fun hno => hno.1⟩
    have hstream : ∀ {j : Nat}, StreamMoves w j out w' → _ := fun hmoves =>
      hstays (by rw [hmoves.quiet]; exact fun _ => List.not_mem_nil)
        (by rw [hmoves.threads]) (by rw [hmoves.inbox]) (by rw [hmoves.outbox])
    cases act with
    | flush j n env => exact hstream (World.step_flush hs)
    | refill j count => exact hstream (World.step_refill hs)
    | call j n fill =>
        obtain ⟨call, r, w₁, t, hstep, hans, rfl, rfl⟩ := World.step_call hs
        have hsame := World.answer_same hans t
        by_cases hij : i = j
        · subst hij
          have hne := Thread.step_ne_inetNtop hstep
          rw [World.setThread_self]
          refine ⟨⟨fun hpc => absurd hpc hne, fun hno => ?_⟩, fun hpc => absurd hpc hne⟩
          exact absurd (List.mem_append_right _ List.mem_cons_self) (hno call)
        · refine hstays (fun c hc => ?_) (hsame.threads i hij) (hsame.inbox i hij)
            (hsame.outbox i hij)
          exact hij (congrArg Prod.fst (List.mem_singleton.mp hc))

/-! ## The end -/

/-- A call was made for the connection: it got a thread. -/
def Served (outs : List (Option Event)) (i : Nat) : Prop :=
  ∃ call, (i, call) ∈ connectionCalls outs

/-- **When `main` is done**, every thread there was has ended. -/
theorem Whole.threads_ended {driver : DriverState} {chunks : Nat → List (List UInt8)}
    {acts : List WholeAct} {outs : List (Option Event)} {ret : Int}
    (h : run Whole.step (.init driver chunks) acts = some (outs, s))
    (hpc : s.process.pc = .done ret) : ∀ st ∈ s.process.threads, st.thread.pc = .done := by
  obtain ⟨acts', outs', hrun, -⟩ := Whole.run_process h
  obtain ⟨ids, tids, hlisted⟩ := run_listed hrun
  exact hlisted.ended_of_done hpc

/-- So has every connection that got one. -/
theorem Whole.all_ended {driver : DriverState} {chunks : Nat → List (List UInt8)}
    {acts : List WholeAct} {outs : List (Option Event)} {ret : Int}
    (h : run Whole.step (.init driver chunks) acts = some (outs, s))
    (hpc : s.process.pc = .done ret) (i : Nat) :
    s.world.threads i = .init ∨ (s.world.threads i).pc = .done := by
  obtain ⟨hagrees, -⟩ := Whole.run_world h
  rcases hagrees.others i with hinit | hdone | ⟨tid, t, pArg, node, hst, hne, -⟩
  · exact .inl hinit
  · exact .inr hdone
  · exact absurd (Whole.threads_ended h hpc _ (List.mem_of_getElem? hst)) hne

theorem Whole.served_drained {driver : DriverState} {chunks : Nat → List (List UInt8)}
    {acts : List WholeAct} {outs : List (Option Event)} {ret : Int}
    (h : run Whole.step (.init driver chunks) acts = some (outs, s))
    (hpc : s.process.pc = .done ret) {i : Nat} (hserved : Served outs i) :
    (s.world.threads i).pc = .done ∧ s.world.inbox i = [] := by
  obtain ⟨-, wacts, wouts, hworld, hcalls⟩ := Whole.run_world h
  have hdone : (s.world.threads i).pc = .done := by
    rcases Whole.all_ended h hpc i with hinit | hdone
    · obtain ⟨call, hmem⟩ := hserved
      have hquiet := (World.run_quiet hworld i).1
      rw [hcalls, hinit] at hquiet
      exact absurd hmem (hquiet.mp rfl call)
    · exact hdone
  refine ⟨hdone, ?_⟩
  exact run_invariant (I := fun w : World Nat => ∀ i, (w.threads i).pc = .done → w.inbox i = [])
    (fun w act out w' hw hs => World.step_drained hw hs) (fun i hi => by cases hi) hworld i hdone

theorem unlockOrder_eq {outs : List (Option (Nat × Call))} :
    outs.flatMap gaveBack = unlockOrder (outs.flatMap Option.toList) := by
  induction outs with
  | nil => rfl
  | cons out outs ih =>
      rw [List.flatMap_cons, List.flatMap_cons, ih, unlockOrder, unlockOrder, List.filter_append,
        List.map_append]
      rcases out with _ | ⟨i, call⟩
      · rfl
      · cases call <;> rfl

end

/-- **The server serves whom it accepts.** Take any reachable device, any clients, and
any run of the server up to the end of `main` in which the threads' calls succeed: any
failures of `accept`, and of `malloc` and `pthread_create` in `main`, a signal at any
time, any order of the calls. Then the mutex is free and no stream is open. What the
device was given is what it had before and then the texts of whole commits, in the
order in which the threads gave the mutex back. Of each connection that got a thread,
all it sent was committed, once and in its order, and it was sent the replies; of the
others, nothing was received and nothing sent. -/
theorem server_done (limit : Nat) (hl : limit ≤ 2 ^ 56) (fPos : Nat → Int)
    {ops : List Op} {rs : List Reply} {d : Device}
    (h : run Device.step (.init limit hl fPos) ops = some (rs, d))
    (chunks : Nat → List (List UInt8)) {acts : List WholeAct} {outs : List (Option Event)}
    {s : Whole} {ret : Int}
    (hrun : run Whole.step (.init d.driver chunks) acts = some (outs, s))
    (hpc : s.process.pc = .done ret) :
    s.world.mutex = none ∧ (∀ file, s.world.streams file = none) ∧
      ∃ acts' outs' t a,
        run Serial.step (.init (commandLog (accepted ops rs))) acts' = some (outs', t) ∧
        (commits outs').map Prod.fst = unlockOrder (connectionCalls outs) ∧
        Tracks s.world.driver a ∧ a.log = t.log ∧
        a.log.bytes = (commandLog (accepted ops rs)).bytes
          ++ (commits outs').flatMap (fun c => c.2.text) ∧
        ∀ i, s.world.outbox i = t.outbox i ∧
          (Served outs i → s.world.inbox i = [] ∧
            commitsOf i outs' = (session (chunks i)).handled.flatten) ∧
          (¬ Served outs i → s.world.inbox i = chunks i ∧ s.world.outbox i = [] ∧
            commitsOf i outs' = []) := by
  have hended := Whole.all_ended hrun hpc
  obtain ⟨-, wacts, wouts, hworld, hcalls⟩ := Whole.run_world hrun
  obtain ⟨b, -, hb, hlog⟩ := run_tracks h
  obtain ⟨-, hheld⟩ := run_held hb.state hworld
  obtain ⟨acts', outs', t, a, hserial, hseen, ha⟩ := run_serializes hb.state hworld
  -- a thread with the mutex would be in the middle of a commit
  have hfree : s.world.mutex = none := by
    cases hm : s.world.mutex with
    | none => rfl
    | some i =>
        have hlocked := (ha.holder i).mp hm
        rcases hended i with hinit | hdone
        · rw [hinit] at hlocked
          cases hlocked
        · rw [hdone] at hlocked
          cases hlocked
  rw [hlog] at hserial
  refine ⟨hfree, hheld.none_open (.inl hfree), acts', outs', t, a, hserial, ?_, ha.tracks,
    ha.free hfree, ?_, fun i => ⟨?_, fun hserved => ?_, fun hserved => ?_⟩⟩
  · rw [hseen, unlockOrder_eq, hcalls]
  · rw [ha.free hfree, Serial.bytes_of_run hserial]
  · apply ha.outside
    rw [hfree]
    simp
  all_goals
    have hgot := ha.inbox i
    have hmade := (Serial.done_of_run hserial i).commits
  · obtain ⟨hdone, hdrained⟩ := Whole.served_drained hrun hpc hserved
    have hdue : t.due i = false := by
      rw [ha.due i, hdone]
      rfl
    rw [hdrained, List.append_nil] at hgot
    rw [hdue, hgot] at hmade
    exact ⟨hdrained, hmade⟩
  · have hquiet := World.run_quiet hworld i
    rw [hcalls] at hquiet
    have hpc : (s.world.threads i).pc = .inetNtop :=
      hquiet.1.mpr fun call hmem => hserved ⟨call, hmem⟩
    obtain ⟨hinbox, houtbox⟩ := hquiet.2 hpc
    have hdue : t.due i = false := by
      rw [ha.due i, hpc]
      rfl
    rw [hinbox] at hgot
    have hgot : t.got i = [] := List.append_left_eq_self.mp hgot
    rw [hdue, hgot] at hmade
    exact ⟨hinbox, houtbox, hmade⟩

/-- A client with a line, and one whose entry gets no memory once a signal came. -/
def oneServedActs : List WholeAct :=
  let call := fun n => WholeAct.call 0 n fun _ => 0
  [.main .turn, .main .descriptor, .main (.block 0), .main (.int 0), .main .turn, .main .turn,
    .main .turn, call 0, call 0, call 0, call 0, call 0, call 0, .flush 0 2 .quiet,
    .refill 0 5, call 0, call 2, .refill 0 5, call 0, call 0, call 0, call 0, .signal,
    .main .descriptor, .main .null, .main .turn, .main (.int 0), .main (.link none),
    .main .turn, .main .turn, .main .turn, .main (.int 0)]

theorem server_done_one_served : ∃ outs s,
    run Whole.step (.init (aesdInitModule 4096 (by decide)) fun _ => [[97, newline]])
      oneServedActs = some (outs, s) ∧ s.process.pc = .done 0 ∧
    ∃ outs' : List (Option (Nat × Action)), commitsOf 0 outs' = [.write [97, newline]] ∧
      commitsOf 1 outs' = [] ∧ s.world.outbox 1 = [] := by
  have hrun : (run Whole.step (.init (aesdInitModule 4096 (by decide)) fun _ => [[97, newline]])
      oneServedActs).any (fun p => p.2.process.pc = .done 0 ∧
        (connectionCalls p.1).map Prod.fst = List.replicate 12 0) = true := by
    decide +kernel
  obtain ⟨⟨outs, s⟩, hrun, hp⟩ := (Option.any_eq_true _ _).mp hrun
  obtain ⟨hpc, hconns⟩ : s.process.pc = .done 0 ∧
      (connectionCalls outs).map Prod.fst = List.replicate 12 0 := of_decide_eq_true hp
  have hinit : run Device.step (.init 4096 (by decide) fun _ => 0) []
      = some ([], .init 4096 (by decide) fun _ => 0) := rfl
  obtain ⟨-, -, acts', outs', t, a, -, -, -, -, -, hall⟩ :=
    server_done 4096 (by decide) (fun _ => 0) hinit _ hrun hpc
  have hserved : Served outs 0 := by
    have hmem : 0 ∈ (connectionCalls outs).map Prod.fst := by
      rw [hconns]
      decide
    obtain ⟨⟨i, call⟩, hmem, rfl⟩ := List.mem_map.mp hmem
    exact ⟨call, hmem⟩
  have hnot : ¬ Served outs 1 := by
    rintro ⟨call, hmem⟩
    have hmem : 1 ∈ (connectionCalls outs).map Prod.fst := List.mem_map_of_mem hmem
    rw [hconns] at hmem
    exact absurd (List.eq_of_mem_replicate hmem) (by decide)
  obtain ⟨-, houtbox, hnone⟩ := (hall 1).2.2 hnot
  exact ⟨outs, s, hrun, hpc, outs', ((hall 0).2.1 hserved).2.trans (by decide), hnone, houtbox⟩

end Aesd.Server
