import Aesd.Lib.Fds
import Mathlib.Data.List.TakeWhile

/-!
# How the server starts

`main` of `server/aesdsocket.c` up to its accept loop: the options, the address,
the daemon, the signals and `listen`, with the descriptors of the process. What
the kernel answers is an input. `syslog` counts too, as it takes a descriptor
with its first message.

`bind_to_address` leaves a socket open for every address it could not use
(`bindToAddress_first`). The daemon has the number open no more on which it
opened `/dev/null` (`daemonize_descriptors`), and it loses the socket when that
got a standard descriptor (`main_accepts`).
-/

namespace Aesd.Server

open Aesd.Lib

/-- What a descriptor refers to: something the process was started with, a socket
for the `n`-th address, `/dev/null`, or the connection of `syslog` to `/dev/log`. -/
inductive Referent where
  | given (file : Nat)
  | socket (n : Nat)
  | devNull
  | devLog
  deriving DecidableEq, Repr

/-! ## `syslog` -/

/-- The descriptors, and the number on which `syslog` opened its connection. -/
structure Descriptors where
  fds : FdTable Referent
  logFile : Option Nat

/-- What becomes of a message: whether the connection that is there takes it, and
whether a new one can be made that does. -/
structure LogCall where
  send : Bool
  connect : Bool
  deriving DecidableEq, Repr

/-- The number is that of the connection still. -/
def Descriptors.connected (d : Descriptors) : Bool :=
  match d.logFile with
  | some n => d.fds.ref n = some .devLog
  | none => false

/-- The number closed, whatever it refers to by now. -/
def Descriptors.disconnect (d : Descriptors) : FdTable Referent :=
  match d.logFile with
  | some n => d.fds.set n none
  | none => d.fds

/-- `syslog`. A message that it cannot send makes it close its connection and open
another, on the lowest free number. -/
def Descriptors.syslog (d : Descriptors) (call : LogCall) : Descriptors :=
  if d.connected && call.send then d
  else
    let fds := d.disconnect
    if call.connect then ⟨fds.install .devLog, some fds.lowest⟩ else ⟨fds, none⟩

/-- A new descriptor of the server. -/
def Descriptors.install (d : Descriptors) (x : Referent) : Descriptors :=
  { d with fds := d.fds.install x }

/-! ## `bind_to_address` -/

/-- The calls for one address, which of them succeed, and the message about the
one that fails. -/
structure AddrCalls where
  socket : Bool
  setsockopt : Bool
  bind : Bool
  log : LogCall
  deriving DecidableEq, Repr

/-- All three succeed. -/
def AddrCalls.usable (a : AddrCalls) : Bool := a.socket && a.setsockopt && a.bind

/-- What `bind_to_address` leaves. -/
structure Bound where
  bStatus : Bool
  pSocketFd : Int
  descriptors : Descriptors

/-- The loop over the addresses, at the `k`-th. -/
def bindLoop : Nat → List AddrCalls → Int → Descriptors → Bound
  | _, [], hSockfd, d => ⟨false, hSockfd, d⟩
  | k, a :: as, _, d =>
      if a.socket then
        let hSockfd := d.fds.lowest
        let d := d.install (.socket k)
        -- both failures go on with the next address, the socket still open
        if a.setsockopt then
          if a.bind then ⟨true, hSockfd, d⟩
          else bindLoop (k + 1) as hSockfd (d.syslog a.log)
        else bindLoop (k + 1) as hSockfd (d.syslog a.log)
      else bindLoop (k + 1) as (-1) (d.syslog a.log)

/-- `bind_to_address`. `getaddrinfo` fails, or gives some addresses; `log` is for
the message about that, or about no address that could be used. -/
def bindToAddress (getaddrinfo : Option (List AddrCalls)) (log : LogCall) (d : Descriptors) :
    Bound :=
  match getaddrinfo with
  | none => ⟨false, 0, d.syslog log⟩
  | some as =>
      let bound := bindLoop 0 as 0 d
      if bound.bStatus then bound
      else { bound with descriptors := bound.descriptors.syslog log }

/-! ## `daemonize_process` -/

/-- What `fork` returns. -/
inductive Fork where
  | failed
  | child
  | parent
  deriving DecidableEq, Repr

/-- What the kernel answers to `daemonize_process`. `streams` are the descriptors
that `fcloseall` closes: those of the standard streams, if it does. The messages are
about `fork`, `setsid`, `chdir` or `fcloseall`, about `open` or `dup2`, and about
`close`. -/
structure DaemonEnv where
  fork : Fork
  setsid : Bool
  chdir : Bool
  fcloseall : Bool
  streams : List Nat
  openNull : Bool
  dup2 : Nat → Bool
  close : Bool
  log : LogCall
  nullLog : LogCall
  closeLog : LogCall
  standard : ∀ n ∈ streams, n ≤ 2

/-- `daemonize_process` exits, in the parent, or returns. -/
inductive Daemonized where
  | exit
  | returned (bStatus : Bool) (descriptors : Descriptors)

/-- `setsid`, `chdir` and `fcloseall`, up to the first that fails. -/
def DaemonEnv.detach (env : DaemonEnv) (d : Descriptors) : Bool × Descriptors :=
  if env.setsid then
    if env.chdir then
      let d := { d with fds := d.fds.closeAll env.streams }
      if env.fcloseall then (true, d) else (false, d.syslog env.log)
    else (false, d.syslog env.log)
  else (false, d.syslog env.log)

/-- `/dev/null` onto `STDOUT_FILENO`, `STDERR_FILENO` and `STDIN_FILENO`, which are
1, 2 and 0. -/
def DaemonEnv.redirect (env : DaemonEnv) (d : Descriptors) : Bool × Descriptors :=
  if env.openNull then
    let nullFd := d.fds.lowest
    let (bDup, fds) := FdTable.dup2s env.dup2 nullFd [1, 2, 0] (d.fds.install .devNull)
    let d := { d with fds }
    let d := if bDup then d else d.syslog env.nullLog
    -- a close that fails gives the number up too
    let bClose := env.close && (d.fds.ref nullFd).isSome
    let d := { d with fds := d.fds.set nullFd none }
    (bDup && bClose, if bClose then d else d.syslog env.closeLog)
  else (false, d.syslog env.nullLog)

/-- `daemonize_process`. -/
def daemonizeProcess (env : DaemonEnv) (d : Descriptors) : Daemonized :=
  match env.fork with
  | .failed => .returned true (d.syslog env.log)
  | .parent => .exit
  | .child =>
      let (bDetached, d) := env.detach d
      let (bRedirected, d) := env.redirect d
      .returned (bDetached && bRedirected) d

/-! ## `main` -/

/-- What the kernel answers while `main` starts. The messages are that of
`bind_to_address`, and that the process is a daemon. -/
structure StartEnv where
  getaddrinfo : Option (List AddrCalls)
  bindLog : LogCall
  daemon : DaemonEnv
  daemonLog : LogCall
  sigint : Bool
  sigterm : Bool
  listen : Bool

/-- The options `getopt` finds in an argument. -/
def optChars (arg : String) : List Char :=
  match arg.toList with
  | '-' :: opts => if opts = ['-'] then [] else opts
  | _ => []

/-- The loop over the options, with `b_daemonize` so far. -/
def optLoop : List Char → Bool → Option Bool
  | [], bDaemonize => some bDaemonize
  | optChar :: opts, _ => if optChar = 'd' then optLoop opts true else none

/-- `assign_signal_handler`: whether both are set. -/
def assignSignalHandler (env : StartEnv) : Bool := env.sigint && env.sigterm

/-- `listen`, which needs a socket. -/
def StartEnv.listens (env : StartEnv) (hSockfd : Int) (fds : FdTable Referent) : Bool :=
  env.listen && 0 ≤ hSockfd &&
    match fds.ref hSockfd.toNat with
    | some (.socket _) => true
    | _ => false

/-- `main` exits, or gets to its accept loop. -/
inductive Started where
  | exit (code : Int)
  | accepting (hSockfd : Int) (descriptors : Descriptors)

def exitSocketFailure : Int := -1

def exitAppFailure : Int := -1

/-- `main` from the signals on. -/
def mainListens (env : StartEnv) (hSockfd : Int) (d : Descriptors) : Started :=
  if assignSignalHandler env then
    if env.listens hSockfd d.fds then .accepting hSockfd d else .exit exitSocketFailure
  else .exit exitAppFailure

/-- `main` from the socket on. -/
def mainBinds (env : StartEnv) (bDaemonize : Bool) (d : Descriptors) : Started :=
  let bound := bindToAddress env.getaddrinfo env.bindLog d
  if bound.bStatus then
    if bDaemonize then
      match daemonizeProcess env.daemon bound.descriptors with
      | .exit => .exit 0
      | .returned false _ => .exit exitSocketFailure
      | .returned true d => mainListens env bound.pSocketFd (d.syslog env.daemonLog)
    else mainListens env bound.pSocketFd bound.descriptors
  else .exit exitSocketFailure

/-- `main` up to its accept loop, with the arguments after the program's name. The
process has no connection of `syslog` at its start. -/
def mainStart (args : List String) (env : StartEnv) (fds : FdTable Referent) : Started :=
  if args.length > 1 then .exit exitAppFailure
  else
    match optLoop (args.flatMap optChars) false with
    | none => .exit exitAppFailure
    | some bDaemonize => mainBinds env bDaemonize ⟨fds, none⟩

/-! ## What `syslog` does to the descriptors -/

section
variable {d : Descriptors} {call : LogCall} {n : Nat} {x : Referent}

theorem Descriptors.connected_iff :
    d.connected = true ↔ ∃ n, d.logFile = some n ∧ d.fds.ref n = some .devLog := by
  unfold Descriptors.connected
  cases d.logFile <;> simp

theorem Descriptors.disconnect_ref :
    d.disconnect.ref n = if d.logFile = some n then none else d.fds.ref n := by
  unfold Descriptors.disconnect
  cases hlog : d.logFile with
  | none => simp
  | some m => simp [FdTable.ref_set, eq_comm]

/-- **What a message does**: nothing, or the connection is made anew, or is lost. -/
theorem Descriptors.syslog_cases (d : Descriptors) (call : LogCall) :
    d.connected = true ∧ d.syslog call = d ∨
      d.syslog call = ⟨d.disconnect.install .devLog, some d.disconnect.lowest⟩ ∨
      d.syslog call = ⟨d.disconnect, none⟩ := by
  unfold Descriptors.syslog
  split
  · rename_i hsend
    exact .inl ⟨(Bool.and_eq_true_iff.mp hsend).1, rfl⟩
  · dsimp only
    split
    · exact .inr (.inl rfl)
    · exact .inr (.inr rfl)

/-- A message closes no other descriptor than the number it had. -/
theorem Descriptors.syslog_keeps (h : d.fds.ref n = some x) (hlog : d.logFile ≠ some n) :
    (d.syslog call).fds.ref n = some x := by
  have hopen : d.disconnect.ref n = some x := by
    rw [Descriptors.disconnect_ref, if_neg hlog, h]
  rcases d.syslog_cases call with ⟨-, heq⟩ | heq | heq <;> rw [heq]
  · exact h
  · exact FdTable.ref_install_of_some hopen
  · exact hopen

/-- What is open after a message was open and is not the connection, or is. -/
theorem Descriptors.syslog_new (h : (d.syslog call).fds.ref n = some x) :
    d.fds.ref n = some x ∧ d.logFile ≠ some n ∨
      x = .devLog ∧ (d.syslog call).logFile = some n := by
  have hrest : d.disconnect.ref n = some x → d.fds.ref n = some x ∧ d.logFile ≠ some n := by
    intro hopen
    rw [Descriptors.disconnect_ref] at hopen
    split at hopen
    · cases hopen
    · rename_i hlog
      exact ⟨hopen, hlog⟩
  rcases d.syslog_cases call with ⟨hconnected, heq⟩ | heq | heq
  · rw [heq] at h ⊢
    obtain ⟨m, hlog, href⟩ := Descriptors.connected_iff.mp hconnected
    by_cases hn : d.logFile = some n
    · rw [hlog] at hn
      cases hn
      rw [href] at h
      cases h
      exact .inr ⟨rfl, hlog⟩
    · exact .inl ⟨h, hn⟩
  · rw [heq] at h ⊢
    by_cases hn : n = d.disconnect.lowest
    · rw [hn, FdTable.ref_install_lowest] at h
      cases h
      exact .inr ⟨rfl, by rw [hn]⟩
    · rw [FdTable.install, FdTable.ref_set_of_ne hn] at h
      exact .inl (hrest h)
  · rw [heq] at h
    exact .inl (hrest h)

/-- The number that `syslog` has after a message is that of its connection, and it
had it before or it was free. -/
theorem Descriptors.syslog_logFile (h : (d.syslog call).logFile = some n) :
    (d.syslog call).fds.ref n = some .devLog ∧
      (d.logFile = some n ∨ d.fds.ref n = none) := by
  rcases d.syslog_cases call with ⟨hconnected, heq⟩ | heq | heq
  · rw [heq] at h ⊢
    obtain ⟨m, hlog, href⟩ := Descriptors.connected_iff.mp hconnected
    rw [hlog] at h
    cases h
    exact ⟨href, .inl hlog⟩
  · rw [heq] at h ⊢
    cases h
    refine ⟨FdTable.ref_install_lowest .., ?_⟩
    have hfree := d.disconnect.ref_lowest
    rw [Descriptors.disconnect_ref] at hfree
    split at hfree
    · rename_i hlog
      exact .inl hlog
    · exact .inr hfree
  · rw [heq] at h
    cases h

end

/-! ## The sockets of `bind_to_address` -/

/-- The addresses for which the loop opens a socket. -/
def socketsFrom : Nat → List AddrCalls → List Nat
  | _, [] => []
  | k, a :: as => (if a.socket then [k] else []) ++ if a.usable then [] else socketsFrom (k + 1) as

/-- What became of the descriptors `fds`: nothing that was open is closed, and new
are the sockets of the addresses `js` and the connection of `syslog`. -/
structure Since (fds : FdTable Referent) (js : List Nat) (d : Descriptors) : Prop where
  keeps : ∀ n x, fds.ref n = some x → d.fds.ref n = some x
  new : ∀ n x, fds.ref n = none → d.fds.ref n = some x →
    (∃ j ∈ js, x = .socket j) ∨ x = .devLog ∧ d.logFile = some n
  socket : ∀ j ∈ js, ∃ n, fds.ref n = none ∧ d.fds.ref n = some (.socket j)
  log : ∀ n, d.logFile = some n → fds.ref n = none ∧ d.fds.ref n = some .devLog

section
variable {fds : FdTable Referent} {js : List Nat} {d : Descriptors} {n : Nat}

theorem Since.init (fds : FdTable Referent) : Since fds [] ⟨fds, none⟩ := by
  constructor
  · exact fun _ _ h => h
  · intro n x hfree href
    rw [hfree] at href
    cases href
  · simp
  · simp

theorem Since.was_free (h : Since fds js d) (hfree : d.fds.ref n = none) : fds.ref n = none := by
  cases hat : fds.ref n with
  | none => rfl
  | some x =>
      rw [h.keeps n x hat] at hfree
      cases hfree

/-- The number of `syslog` is not one that refers to something else. -/
theorem Since.log_ne (h : Since fds js d) {x : Referent} (href : d.fds.ref n = some x)
    (hx : x ≠ .devLog) : d.logFile ≠ some n := by
  intro hlog
  rw [(h.log n hlog).2] at href
  cases href
  exact hx rfl

theorem Since.install (h : Since fds js d) (k : Nat) :
    Since fds (js ++ [k]) (d.install (.socket k)) := by
  have hfree := h.was_free d.fds.ref_lowest
  constructor
  · exact fun n x hat => FdTable.ref_install_of_some (h.keeps n x hat)
  · intro n x hnone href
    have href : (d.fds.install (.socket k)).ref n = some x := href
    rw [FdTable.install, FdTable.ref_set] at href
    split at href
    · cases href
      exact .inl ⟨k, by simp, rfl⟩
    · rcases h.new n x hnone href with ⟨j, hj, hx⟩ | hlog
      · exact .inl ⟨j, List.mem_append_left _ hj, hx⟩
      · exact .inr hlog
  · intro j hj
    rcases List.mem_append.mp hj with hj | hj
    · obtain ⟨n, hnone, href⟩ := h.socket j hj
      exact ⟨n, hnone, FdTable.ref_install_of_some href⟩
    · cases List.mem_singleton.mp hj
      exact ⟨d.fds.lowest, hfree, FdTable.ref_install_lowest ..⟩
  · intro n hlog
    obtain ⟨hnone, href⟩ := h.log n hlog
    exact ⟨hnone, FdTable.ref_install_of_some href⟩

theorem Since.syslog (h : Since fds js d) (call : LogCall) : Since fds js (d.syslog call) := by
  constructor
  · intro n x hat
    refine Descriptors.syslog_keeps (h.keeps n x hat) fun hlog => ?_
    rw [(h.log n hlog).1] at hat
    cases hat
  · intro n x hnone href
    rcases Descriptors.syslog_new href with ⟨hbefore, hne⟩ | hlog
    · exact .inl ((h.new n x hnone hbefore).resolve_right fun hlog => hne hlog.2)
    · exact .inr hlog
  · intro j hj
    obtain ⟨n, hnone, href⟩ := h.socket j hj
    exact ⟨n, hnone, Descriptors.syslog_keeps href (h.log_ne href (by simp))⟩
  · intro n hlog
    obtain ⟨href, hbefore | hbefore⟩ := Descriptors.syslog_logFile hlog
    · exact ⟨(h.log n hbefore).1, href⟩
    · exact ⟨h.was_free hbefore, href⟩

/-! ## `bind_to_address` takes the first address it can use -/

theorem bindLoop_continue (k : Nat) (as : List AddrCalls) (hSockfd : Int) (d : Descriptors)
    {a : AddrCalls} (h : a.usable = false) :
    ∃ hSockfd', bindLoop k (a :: as) hSockfd d
      = bindLoop (k + 1) as hSockfd'
        ((if a.socket then d.install (.socket k) else d).syslog a.log) := by
  obtain ⟨socket, setsockopt, bind, log⟩ := a
  cases socket with
  | false => exact ⟨-1, rfl⟩
  | true =>
      refine ⟨d.fds.lowest, ?_⟩
      cases setsockopt with
      | false => rfl
      | true =>
          cases bind with
          | false => rfl
          | true => cases h

theorem bindLoop_break {k : Nat} {as : List AddrCalls} {hSockfd : Int} {a : AddrCalls}
    (h : a.usable = true) :
    bindLoop k (a :: as) hSockfd d = ⟨true, d.fds.lowest, d.install (.socket k)⟩ := by
  simp only [AddrCalls.usable, Bool.and_eq_true] at h
  simp [bindLoop, h.1.1, h.1.2, h.2]

theorem Since.turn (h : Since fds js d) (a : AddrCalls) (k : Nat) :
    Since fds (js ++ if a.socket then [k] else [])
      ((if a.socket then d.install (.socket k) else d).syslog a.log) := by
  refine Since.syslog ?_ a.log
  cases a.socket with
  | false => simpa using h
  | true => exact h.install k

theorem bindLoop_since (h : Since fds js d) (k : Nat) (as : List AddrCalls) (hSockfd : Int) :
    Since fds (js ++ socketsFrom k as) (bindLoop k as hSockfd d).descriptors := by
  induction as generalizing k hSockfd js d with
  | nil => simpa [socketsFrom, bindLoop] using h
  | cons a as ih =>
      rw [socketsFrom, ← List.append_assoc]
      cases ha : a.usable with
      | true =>
          have hsocket : a.socket = true := by
            simp only [AddrCalls.usable, Bool.and_eq_true] at ha
            exact ha.1.1
          rw [bindLoop_break ha, hsocket, if_pos rfl, if_pos rfl, List.append_nil]
          exact h.install k
      | false =>
          obtain ⟨hSockfd', hloop⟩ := bindLoop_continue k as hSockfd d ha
          rw [hloop]
          exact ih (h.turn a k) (k + 1) hSockfd'

theorem bindLoop_status {k : Nat} {as : List AddrCalls} {hSockfd : Int} :
    (bindLoop k as hSockfd d).bStatus = true ↔ as.findIdx AddrCalls.usable < as.length := by
  induction as generalizing k hSockfd d with
  | nil => simp [bindLoop]
  | cons a as ih =>
      cases h : a.usable with
      | true => simp [bindLoop_break h, List.findIdx_cons, h]
      | false =>
          obtain ⟨hSockfd', hloop⟩ := bindLoop_continue k as hSockfd d h
          rw [hloop, ih]
          simp [List.findIdx_cons, h]

theorem Since.socket_bound (h : Since fds js d) {k : Nat} {as : List AddrCalls}
    {hSockfd : Int} (hbound : (bindLoop k as hSockfd d).bStatus = true) :
    ∃ n : Nat, (bindLoop k as hSockfd d).pSocketFd = n ∧ fds.ref n = none ∧
      (bindLoop k as hSockfd d).descriptors.fds.ref n
        = some (.socket (k + as.findIdx AddrCalls.usable)) := by
  induction as generalizing k hSockfd js d with
  | nil => cases hbound
  | cons a as ih =>
      cases ha : a.usable with
      | true =>
          rw [bindLoop_break ha]
          refine ⟨d.fds.lowest, rfl, h.was_free d.fds.ref_lowest, ?_⟩
          simp [Descriptors.install, List.findIdx_cons, ha]
      | false =>
          obtain ⟨hSockfd', hloop⟩ := bindLoop_continue k as hSockfd d ha
          rw [hloop] at hbound ⊢
          obtain ⟨n, hn, hfree, href⟩ := ih (h.turn a k) hbound
          refine ⟨n, hn, hfree, ?_⟩
          rw [href, List.findIdx_cons, ha]
          simp only [cond_false, Option.some.injEq, Referent.socket.injEq]
          omega

theorem mem_socketsFrom {k j : Nat} {as : List AddrCalls} :
    j ∈ socketsFrom k as ↔
      ∃ m a, j = k + m ∧ as[m]? = some a ∧ m ≤ as.findIdx AddrCalls.usable ∧
        a.socket = true := by
  induction as generalizing k with
  | nil => simp [socketsFrom]
  | cons b bs ih =>
      have hhead : j ∈ (if b.socket then [k] else []) ↔ j = k ∧ b.socket = true := by
        cases b.socket <;> simp
      have htail : j ∈ (if b.usable then [] else socketsFrom (k + 1) bs) ↔
          b.usable = false ∧ ∃ m a, j = k + 1 + m ∧ bs[m]? = some a ∧
            m ≤ bs.findIdx AddrCalls.usable ∧ a.socket = true := by
        cases b.usable
        · simpa using ih
        · simp
      rw [socketsFrom, List.mem_append, hhead, htail]
      constructor
      · rintro (⟨rfl, hb⟩ | ⟨hb, m, a, rfl, hm, hle, ha⟩)
        · exact ⟨0, b, rfl, rfl, Nat.zero_le _, hb⟩
        · refine ⟨m + 1, a, by omega, by simpa using hm, ?_, ha⟩
          rw [List.findIdx_cons, hb]
          exact Nat.succ_le_succ hle
      · rintro ⟨m, a, rfl, hm, hle, ha⟩
        cases m with
        | zero =>
            cases hm
            exact .inl ⟨rfl, ha⟩
        | succ m =>
            right
            rw [List.findIdx_cons] at hle
            cases hb : b.usable with
            | true =>
                rw [hb] at hle
                exact absurd hle (by simp)
            | false =>
                rw [hb] at hle
                exact ⟨rfl, m, a, by omega, by simpa using hm, Nat.le_of_succ_le_succ hle, ha⟩

theorem bindToAddress_since (fds : FdTable Referent) (as : List AddrCalls) (log : LogCall) :
    Since fds (socketsFrom 0 as) (bindToAddress (some as) log ⟨fds, none⟩).descriptors := by
  have h := bindLoop_since (Since.init fds) 0 as 0
  rw [List.nil_append] at h
  unfold bindToAddress
  dsimp only
  split
  · exact h
  · exact h.syslog log

theorem bindToAddress_eq (as : List AddrCalls) (log : LogCall) (d : Descriptors) :
    (bindToAddress (some as) log d).bStatus = (bindLoop 0 as 0 d).bStatus ∧
      ((bindToAddress (some as) log d).bStatus = true →
        bindToAddress (some as) log d = bindLoop 0 as 0 d) := by
  unfold bindToAddress
  dsimp only
  split
  · exact ⟨rfl, fun _ => rfl⟩
  · rename_i hfailed
    exact ⟨rfl, fun hbound => absurd hbound hfailed⟩

end

/-- **`bind_to_address` takes the first address it can use**, and loses the
others' sockets. For every list of addresses and whatever their calls and messages
do, with `i` the first address whose three calls succeed: it returns true if and
only if there is one, with a new descriptor for its socket; nothing that was open
is closed; the sockets on new descriptors are those of the addresses up to `i`, all
that `socket` made; and any other new descriptor is the one connection of `syslog`,
which is there only if a call failed. -/
theorem bindToAddress_first (as : List AddrCalls) (log : LogCall) (fds : FdTable Referent) :
    let i := as.findIdx AddrCalls.usable
    let bound := bindToAddress (some as) log ⟨fds, none⟩
    let d := bound.descriptors
    (bound.bStatus = true ↔ i < as.length) ∧
    (bound.bStatus = true → ∃ n : Nat, bound.pSocketFd = n ∧ fds.ref n = none ∧
      d.fds.ref n = some (.socket i)) ∧
    (∀ n x, fds.ref n = some x → d.fds.ref n = some x) ∧
    (∀ n x, fds.ref n = none → d.fds.ref n = some x →
      (∃ j, x = .socket j) ∨ x = .devLog ∧ d.logFile = some n) ∧
    (∀ j, (∃ n, fds.ref n = none ∧ d.fds.ref n = some (.socket j)) ↔
      ∃ a, as[j]? = some a ∧ j ≤ i ∧ a.socket = true) ∧
    (∀ n, d.logFile = some n → fds.ref n = none ∧ d.fds.ref n = some .devLog) ∧
    (bound.bStatus = true → i = 0 → d.logFile = none) := by
  intro i bound d
  have hsince : Since fds (socketsFrom 0 as) d := bindToAddress_since fds as log
  obtain ⟨hstatus, hbound⟩ := bindToAddress_eq as log ⟨fds, none⟩
  have hmem : ∀ j, j ∈ socketsFrom 0 as ↔ ∃ a, as[j]? = some a ∧ j ≤ i ∧ a.socket = true := by
    intro j
    rw [mem_socketsFrom]
    constructor
    · rintro ⟨m, a, rfl, h⟩
      rw [Nat.zero_add]
      exact ⟨a, h⟩
    · rintro ⟨a, h⟩
      exact ⟨j, a, (Nat.zero_add j).symm, h⟩
  refine ⟨?_, ?_, hsince.keeps, ?_, ?_, hsince.log, ?_⟩
  · rw [hstatus]
    exact bindLoop_status
  · intro h
    obtain ⟨n, hn, hfree, href⟩ := (Since.init fds).socket_bound (hstatus ▸ h)
    rw [← hbound h, Nat.zero_add] at href
    rw [← hbound h] at hn
    exact ⟨n, hn, hfree, href⟩
  · intro n x hfree href
    exact (hsince.new n x hfree href).imp_left fun ⟨j, _, hx⟩ => ⟨j, hx⟩
  · intro j
    rw [← hmem]
    constructor
    · rintro ⟨n, hfree, href⟩
      rcases hsince.new n _ hfree href with ⟨j', hj, heq⟩ | ⟨hx, -⟩
      · cases heq
        exact hj
      · cases hx
    · exact hsince.socket j
  · intro h hi
    show bound.descriptors.logFile = none
    have hloop : bound = bindLoop 0 as 0 ⟨fds, none⟩ := hbound h
    cases as with
    | nil => exact absurd h (by simp [bound, hstatus, bindLoop])
    | cons a as =>
        have ha : a.usable = true := by
          by_contra hfalse
          have hi : (a :: as).findIdx AddrCalls.usable = 0 := hi
          rw [List.findIdx_cons, Bool.eq_false_iff.mpr hfalse] at hi
          cases hi
        rw [hloop, bindLoop_break ha]
        rfl

/-! ## The descriptors of the daemon -/

/-- Every call of the child succeeds. -/
def DaemonEnv.works (env : DaemonEnv) : Bool :=
  env.setsid && env.chdir && env.fcloseall && env.openNull && env.dup2 1 && env.dup2 2 &&
    env.dup2 0 && env.close

/-- The number on which the child opens `/dev/null`. -/
def DaemonEnv.nullFd (env : DaemonEnv) (fds : FdTable Referent) : Nat :=
  (fds.closeAll env.streams).lowest

/-- The descriptors of a child whose calls all succeed. -/
def DaemonEnv.childFds (env : DaemonEnv) (fds : FdTable Referent) : FdTable Referent :=
  (FdTable.redirect env.dup2 .devNull [1, 2, 0] (fds.closeAll env.streams)).2

section
variable {env : DaemonEnv} {d d' : Descriptors}

theorem DaemonEnv.detach_eq_true (env : DaemonEnv) (d : Descriptors) :
    (env.detach d).1 = true ↔ env.setsid = true ∧ env.chdir = true ∧ env.fcloseall = true := by
  unfold DaemonEnv.detach
  cases env.setsid <;> cases env.chdir <;> cases env.fcloseall <;> simp

theorem DaemonEnv.detach_snd (h : (env.detach d).1 = true) :
    (env.detach d).2 = { d with fds := d.fds.closeAll env.streams } := by
  obtain ⟨hsetsid, hchdir, hclose⟩ := (env.detach_eq_true d).mp h
  simp [DaemonEnv.detach, hsetsid, hchdir, hclose]

theorem DaemonEnv.redirect_eq_true (env : DaemonEnv) (d : Descriptors) :
    (env.redirect d).1 = true ↔ env.openNull = true ∧ env.dup2 1 = true ∧ env.dup2 2 = true ∧
      env.dup2 0 = true ∧ env.close = true := by
  have hdup : (FdTable.dup2s env.dup2 d.fds.lowest [1, 2, 0] (d.fds.install .devNull)).1 = true ↔
      env.dup2 1 = true ∧ env.dup2 2 = true ∧ env.dup2 0 = true := by
    rw [FdTable.dup2s_eq_true (by simp)]
    simp
  unfold DaemonEnv.redirect
  cases env.openNull with
  | false => simp
  | true =>
      cases hd : FdTable.dup2s env.dup2 d.fds.lowest [1, 2, 0] (d.fds.install .devNull) with
      | mk bDup fds =>
          rw [hd] at hdup
          cases bDup with
          | false =>
              have hfails : ¬ (env.dup2 1 = true ∧ env.dup2 2 = true ∧ env.dup2 0 = true) :=
                fun h => Bool.false_ne_true (hdup.mpr h)
              simp only [hd, if_true, Bool.false_and, Bool.false_eq_true, false_iff]
              rintro ⟨-, h₁, h₂, h₀, -⟩
              exact hfails ⟨h₁, h₂, h₀⟩
          | true =>
              obtain ⟨h₁, h₂, h₀⟩ := hdup.mp rfl
              simp [hd, FdTable.dup2s_install hd, h₁, h₂, h₀]

theorem DaemonEnv.redirect_snd (h : (env.redirect d).1 = true) :
    (env.redirect d).2 = { d with
      fds := (FdTable.redirect env.dup2 .devNull [1, 2, 0] d.fds).2 } := by
  obtain ⟨hnull, h₁, h₂, h₀, hclose⟩ := (env.redirect_eq_true d).mp h
  have hdup : (FdTable.dup2s env.dup2 d.fds.lowest [1, 2, 0] (d.fds.install .devNull)).1 = true :=
    (FdTable.dup2s_eq_true (by simp)).mpr (by simp [h₁, h₂, h₀])
  cases hd : FdTable.dup2s env.dup2 d.fds.lowest [1, 2, 0] (d.fds.install .devNull) with
  | mk bDup fds =>
      rw [hd] at hdup
      cases hdup
      simp [DaemonEnv.redirect, hnull, hd, hclose, FdTable.dup2s_install hd,
        FdTable.redirect_of_dup2s hd]

/-- **The child returns true** if and only if all its calls succeed. -/
theorem daemonizeProcess_child (hfork : env.fork = .child) :
    daemonizeProcess env d = .returned true d' ↔
      env.works = true ∧ d' = { d with fds := env.childFds d.fds } := by
  have hworks : env.works = true ↔
      (env.detach d).1 = true ∧ (env.redirect (env.detach d).2).1 = true := by
    rw [env.detach_eq_true, env.redirect_eq_true]
    simp [DaemonEnv.works, and_assoc]
  have hreturned : daemonizeProcess env d = .returned true d' ↔
      ((env.detach d).1 = true ∧ (env.redirect (env.detach d).2).1 = true) ∧
        (env.redirect (env.detach d).2).2 = d' := by
    simp [daemonizeProcess, hfork]
  rw [hreturned, ← hworks]
  refine and_congr_right fun h => ?_
  obtain ⟨h₁, h₂⟩ := hworks.mp h
  rw [DaemonEnv.redirect_snd h₂, DaemonEnv.detach_snd h₁, eq_comm]
  rfl

theorem DaemonEnv.childFds_eq {fds : FdTable Referent} (h : env.works = true) :
    FdTable.redirect env.dup2 .devNull [1, 2, 0] (fds.closeAll env.streams)
      = (true, env.childFds fds) := by
  refine Prod.ext (FdTable.redirect_eq_true.mpr ?_) rfl
  simp only [DaemonEnv.works, Bool.and_eq_true] at h
  simp [h]

theorem DaemonEnv.childFds_ref (h : env.works = true) (fds : FdTable Referent) (n : Nat) :
    (env.childFds fds).ref n = if n = env.nullFd fds then none
      else if n ≤ 2 then some .devNull else fds.ref n := by
  have hmem : n ∈ [1, 2, 0] ↔ n ≤ 2 := by
    simp only [List.mem_cons, List.not_mem_nil, or_false]
    omega
  rw [FdTable.redirect_ref (DaemonEnv.childFds_eq h), DaemonEnv.nullFd]
  simp only [hmem]
  by_cases hn : n ≤ 2
  · simp only [if_pos hn]
  · have hstream : n ∉ env.streams := fun hmem => hn (env.standard n hmem)
    simp only [if_neg hn]
    rw [FdTable.ref_closeAll, if_neg hstream]

theorem DaemonEnv.childFds_keeps (h : env.works = true) {fds : FdTable Referent} {n : Nat}
    {x : Referent} (hn : 2 < n) (href : fds.ref n = some x) :
    (env.childFds fds).ref n = some x := by
  have hstream : n ∉ env.streams := fun hmem => Nat.not_le.mpr hn (env.standard n hmem)
  have hopen : (fds.closeAll env.streams).ref n = some x := by
    rw [FdTable.ref_closeAll, if_neg hstream, href]
  have hne : n ≠ env.nullFd fds := FdTable.ne_lowest (by simp [hopen])
  rw [DaemonEnv.childFds_ref h, if_neg hne, if_neg (Nat.not_le.mpr hn), href]

theorem daemonize_failed (hfork : env.fork = .failed) :
    daemonizeProcess env d = .returned true d' ↔ d' = d.syslog env.log := by
  simp [daemonizeProcess, hfork, eq_comm]

theorem exists_returned :
    (∃ d', daemonizeProcess env d = .returned true d') ↔
      env.fork = .failed ∨ env.fork = .child ∧ env.works = true := by
  constructor
  · rintro ⟨d', h⟩
    cases hfork : env.fork with
    | failed => exact .inl rfl
    | child => exact .inr ⟨rfl, ((daemonizeProcess_child hfork).mp h).1⟩
    | parent =>
        simp only [daemonizeProcess, hfork] at h
        cases h
  · rintro (hfork | ⟨hfork, hworks⟩)
    · exact ⟨_, (daemonize_failed hfork).mpr rfl⟩
    · exact ⟨_, (daemonizeProcess_child hfork).mpr ⟨hworks, rfl⟩⟩

end

/-- **The daemon's descriptors.** `daemonize_process` returns true if `fork` fails,
or in the child if all its calls succeed. When `fork` fails there was only the
message about it, which closes nothing but the connection of `syslog` and opens
nothing but another. The child has `/dev/null` on the standard descriptors and the
others as before, except for the number on which it opened `/dev/null`: that one is
closed, and it is the next that the process will get. So if `fcloseall` closed a
standard descriptor, or one was closed before, the lowest such one is closed. And
`syslog` takes the number it had for its connection still, whatever is on it. -/
theorem daemonize_descriptors (env : DaemonEnv) (d : Descriptors) :
    ((∃ d', daemonizeProcess env d = .returned true d') ↔
      env.fork = .failed ∨ env.fork = .child ∧ env.works = true) ∧
    ∀ d', daemonizeProcess env d = .returned true d' →
      (env.fork = .failed →
        (∀ n x, d.fds.ref n = some x → d.logFile ≠ some n → d'.fds.ref n = some x) ∧
        ∀ n x, d'.fds.ref n = some x →
          d.fds.ref n = some x ∨ x = .devLog ∧ d'.logFile = some n) ∧
      (env.fork = .child →
        (∀ n, d'.fds.ref n = if n = env.nullFd d.fds then none
          else if n ≤ 2 then some .devNull else d.fds.ref n) ∧
        d'.fds.lowest = env.nullFd d.fds ∧ d'.logFile = d.logFile) := by
  refine ⟨exists_returned, fun d' h => ⟨fun hfork => ?_, fun hfork => ?_⟩⟩
  · obtain rfl := (daemonize_failed hfork).mp h
    exact ⟨fun n x href hlog => Descriptors.syslog_keeps href hlog,
      fun n x href => (Descriptors.syslog_new href).imp_left And.left⟩
  · obtain ⟨hworks, rfl⟩ := (daemonizeProcess_child hfork).mp h
    exact ⟨DaemonEnv.childFds_ref hworks d.fds,
      FdTable.lowest_redirect (DaemonEnv.childFds_eq hworks), rfl⟩

/-! ## The way to the accept loop -/

/-- From the socket to the signals `main` goes on as it was, or as a daemon. -/
inductive Detaches (env : StartEnv) (bDaemonize : Bool) (d : Descriptors) : Descriptors → Prop where
  | foreground : bDaemonize = false → Detaches env bDaemonize d d
  | failed : bDaemonize = true → env.daemon.fork = .failed →
      Detaches env bDaemonize d ((d.syslog env.daemon.log).syslog env.daemonLog)
  | daemon : bDaemonize = true → env.daemon.fork = .child → env.daemon.works = true →
      Detaches env bDaemonize d
        (Descriptors.syslog { d with fds := env.daemon.childFds d.fds } env.daemonLog)

/-- What lets `main` get to its accept loop, once it has its socket. -/
def Reaches (env : StartEnv) (bDaemonize : Bool) (bound : Bound) : Prop :=
  bound.bStatus = true ∧ env.sigint = true ∧ env.sigterm = true ∧ env.listen = true ∧
    (bDaemonize = true → env.daemon.fork = .failed ∨
      env.daemon.fork = .child ∧ env.daemon.works = true ∧ 2 < bound.pSocketFd)

section
variable {env : StartEnv} {fds : FdTable Referent} {d d' : Descriptors} {hSockfd : Int}
  {bDaemonize : Bool} {js : List Nat} {n i : Nat}

theorem exists_detaches (d : Descriptors) (h : bDaemonize = true → env.daemon.fork = .failed ∨
      env.daemon.fork = .child ∧ env.daemon.works = true) :
    ∃ d', Detaches env bDaemonize d d' := by
  cases bDaemonize with
  | false => exact ⟨d, .foreground rfl⟩
  | true =>
      rcases h rfl with hfork | ⟨hfork, hworks⟩
      · exact ⟨_, .failed rfl hfork⟩
      · exact ⟨_, .daemon rfl hfork hworks⟩

/-- No socket is new, and a daemon has none on a standard descriptor. -/
theorem Detaches.socket_before (h : Detaches env bDaemonize d d')
    (href : d'.fds.ref n = some (.socket i)) :
    d.fds.ref n = some (.socket i) ∧ (bDaemonize = true → env.daemon.fork = .failed ∨ 2 < n) := by
  -- a message opens no socket
  have hsyslog : ∀ {d : Descriptors} {call : LogCall},
      (d.syslog call).fds.ref n = some (.socket i) → d.fds.ref n = some (.socket i) := by
    intro d call hat
    rcases Descriptors.syslog_new hat with ⟨hat, -⟩ | ⟨hx, -⟩
    · exact hat
    · cases hx
  cases h with
  | foreground hd => exact ⟨href, fun hd' => by simp [hd] at hd'⟩
  | failed _ hfork => exact ⟨hsyslog (hsyslog href), fun _ => .inl hfork⟩
  | daemon _ _ hworks =>
      have hat : (env.daemon.childFds d.fds).ref n = some (.socket i) := hsyslog href
      rw [DaemonEnv.childFds_ref hworks] at hat
      split at hat
      · cases hat
      · split at hat
        · cases hat
        · exact ⟨hat, fun _ => .inr (by omega)⟩

/-- **The socket is kept**, unless it is a standard descriptor of a daemon. -/
theorem Detaches.keeps (h : Detaches env bDaemonize d d') (hsince : Since fds js d)
    (href : d.fds.ref n = some (.socket i)) :
    d'.fds.ref n = some (.socket i) ↔ (bDaemonize = true → env.daemon.fork = .failed ∨ 2 < n) := by
  refine ⟨fun hat => (h.socket_before hat).2, fun hkept => ?_⟩
  have hlog := hsince.log_ne href (by simp)
  cases h with
  | foreground => exact href
  | failed =>
      have href' : (d.syslog env.daemon.log).fds.ref n = some (.socket i) :=
        Descriptors.syslog_keeps href hlog
      have hlog' := (hsince.syslog env.daemon.log).log_ne href' (by simp)
      exact Descriptors.syslog_keeps href' hlog'
  | daemon hd hfork hworks =>
      rcases hkept hd with hfailed | hlt
      · rw [hfork] at hfailed
        cases hfailed
      · exact Descriptors.syslog_keeps (DaemonEnv.childFds_keeps hworks hlt href) hlog

theorem Detaches.keeps_given (h : Detaches env bDaemonize d d') (hsince : Since fds js d)
    {x : Referent} (hn : 2 < n) (hat : fds.ref n = some x) : d'.fds.ref n = some x := by
  have hgiven : ∀ d : Descriptors, Since fds js d → d.logFile ≠ some n := by
    intro d hsince hlog
    rw [(hsince.log n hlog).1] at hat
    cases hat
  have hbefore := hsince.keeps n x hat
  cases h with
  | foreground => exact hbefore
  | failed =>
      have hsince' := hsince.syslog env.daemon.log
      exact Descriptors.syslog_keeps (hsince'.keeps n x hat) (hgiven _ hsince')
  | daemon _ _ hworks =>
      exact Descriptors.syslog_keeps (DaemonEnv.childFds_keeps hworks hn hbefore) (hgiven d hsince)

theorem daemon_standard (hworks : env.daemon.works = true) (hn : n ≤ 2) :
    let d' := Descriptors.syslog { d with fds := env.daemon.childFds d.fds } env.daemonLog
    d'.fds.ref n = some .devNull ∨ d'.fds.ref n = some .devLog ∧ d'.logFile = some n ∨
      d'.fds.ref n = none ∧ (n = env.daemon.nullFd d.fds ∨ d.logFile = some n) := by
  intro d'
  have hchild := DaemonEnv.childFds_ref hworks d.fds n
  cases hat : d'.fds.ref n with
  | none =>
      refine .inr (.inr ⟨rfl, ?_⟩)
      by_contra hopen
      rw [not_or] at hopen
      rw [if_neg hopen.1, if_pos hn] at hchild
      have hkept : d'.fds.ref n = some .devNull := Descriptors.syslog_keeps hchild hopen.2
      rw [hat] at hkept
      cases hkept
  | some x =>
      rcases Descriptors.syslog_new hat with ⟨hbefore, -⟩ | ⟨rfl, hlog⟩
      · have hbefore : (env.daemon.childFds d.fds).ref n = some x := hbefore
        rw [hchild, if_pos hn] at hbefore
        split at hbefore
        · cases hbefore
        · exact .inl hbefore.symm
      · exact .inr (.inl ⟨rfl, hlog⟩)

theorem listens_iff (h : Detaches env bDaemonize d d') (href : d.fds.ref n = some (.socket i)) :
    env.listens n d'.fds = true ↔ env.listen = true ∧ d'.fds.ref n = some (.socket i) := by
  have hlistens : env.listens n d'.fds = true ↔
      env.listen = true ∧ ∃ j, d'.fds.ref n = some (.socket j) := by
    simp only [StartEnv.listens, Bool.and_eq_true, Int.toNat_natCast, Int.natCast_nonneg,
      decide_true, and_true]
    refine and_congr_right fun _ => ?_
    cases d'.fds.ref n with
    | none => simp
    | some x => cases x <;> simp
  rw [hlistens]
  refine and_congr_right fun _ => ⟨?_, fun hat => ⟨i, hat⟩⟩
  rintro ⟨j, hat⟩
  rw [(h.socket_before hat).1] at href
  rw [hat, href]

theorem mainListens_eq_accepting {h : Int} :
    mainListens env h d = .accepting hSockfd d' ↔
      env.sigint = true ∧ env.sigterm = true ∧ h = hSockfd ∧ d = d' ∧
        env.listens h d.fds = true := by
  unfold mainListens assignSignalHandler
  cases env.sigint <;> cases env.sigterm <;> cases env.listens h d.fds <;> simp

theorem mainBinds_eq_accepting :
    mainBinds env bDaemonize d = .accepting hSockfd d' ↔
      (bindToAddress env.getaddrinfo env.bindLog d).bStatus = true ∧
        Detaches env bDaemonize (bindToAddress env.getaddrinfo env.bindLog d).descriptors d' ∧
        env.sigint = true ∧ env.sigterm = true ∧
        (bindToAddress env.getaddrinfo env.bindLog d).pSocketFd = hSockfd ∧
        env.listens hSockfd d'.fds = true := by
  unfold mainBinds
  generalize bindToAddress env.getaddrinfo env.bindLog d = bound
  obtain ⟨bStatus, pSocketFd, d⟩ := bound
  cases bStatus with
  | false => simp
  | true =>
      constructor
      · intro h
        dsimp only at h
        rw [if_pos rfl] at h
        split at h
        · rename_i hd
          split at h
          · cases h
          · cases h
          · rename_i c hreturned
            obtain ⟨hsigint, hsigterm, rfl, rfl, hlistens⟩ := mainListens_eq_accepting.mp h
            refine ⟨rfl, ?_, hsigint, hsigterm, rfl, hlistens⟩
            rcases exists_returned.mp ⟨c, hreturned⟩ with hfork | ⟨hfork, -⟩
            · rw [(daemonize_failed hfork).mp hreturned]
              exact .failed hd hfork
            · obtain ⟨hworks, rfl⟩ := (daemonizeProcess_child hfork).mp hreturned
              exact .daemon hd hfork hworks
        · rename_i hd
          obtain ⟨hsigint, hsigterm, rfl, rfl, hlistens⟩ := mainListens_eq_accepting.mp h
          exact ⟨rfl, .foreground (Bool.eq_false_iff.mpr hd), hsigint, hsigterm, rfl, hlistens⟩
      · rintro ⟨-, hdetach, hsigint, hsigterm, rfl, hlistens⟩
        dsimp only
        cases hdetach with
        | foreground hd =>
            rw [if_pos rfl, if_neg (by simp [hd])]
            exact mainListens_eq_accepting.mpr ⟨hsigint, hsigterm, rfl, rfl, hlistens⟩
        | failed hd hfork =>
            rw [if_pos rfl, if_pos hd, (daemonize_failed hfork).mpr rfl]
            exact mainListens_eq_accepting.mpr ⟨hsigint, hsigterm, rfl, rfl, hlistens⟩
        | daemon hd hfork hworks =>
            rw [if_pos rfl, if_pos hd, (daemonizeProcess_child hfork).mpr ⟨hworks, rfl⟩]
            exact mainListens_eq_accepting.mpr ⟨hsigint, hsigterm, rfl, rfl, hlistens⟩

theorem mainStart_eq_accepting {args : List String} :
    mainStart args env fds = .accepting hSockfd d' ↔
      args.length ≤ 1 ∧ ∃ bDaemonize, optLoop (args.flatMap optChars) false = some bDaemonize ∧
        mainBinds env bDaemonize ⟨fds, none⟩ = .accepting hSockfd d' := by
  constructor
  · intro h
    simp only [mainStart] at h
    split at h
    · cases h
    · rename_i hlen
      split at h
      · cases h
      · rename_i bDaemonize hopts
        exact ⟨by omega, bDaemonize, hopts, h⟩
  · rintro ⟨hlen, bDaemonize, hopts, h⟩
    simp [mainStart, Nat.not_lt.mpr hlen, hopts, h]

theorem bindToAddress_socket {log : LogCall} {getaddrinfo : Option (List AddrCalls)}
    (h : (bindToAddress getaddrinfo log ⟨fds, none⟩).bStatus = true) :
    ∃ (as : List AddrCalls) (n : Nat), getaddrinfo = some as ∧
      as.findIdx AddrCalls.usable < as.length ∧
      (bindToAddress getaddrinfo log ⟨fds, none⟩).pSocketFd = n ∧ fds.ref n = none ∧
      (bindToAddress getaddrinfo log ⟨fds, none⟩).descriptors.fds.ref n
        = some (.socket (as.findIdx AddrCalls.usable)) ∧
      Since fds (socketsFrom 0 as)
        (bindToAddress getaddrinfo log ⟨fds, none⟩).descriptors := by
  cases getaddrinfo with
  | none => cases h
  | some as =>
      obtain ⟨hstatus, hbound⟩ := bindToAddress_eq as log ⟨fds, none⟩
      obtain ⟨n, hn, hfree, href⟩ := (Since.init fds).socket_bound (hstatus ▸ h)
      rw [← hbound h, Nat.zero_add] at href
      rw [← hbound h] at hn
      exact ⟨as, n, rfl, bindLoop_status.mp (hstatus ▸ h), hn, hfree, href,
        bindToAddress_since fds as log⟩

end

/-- **When the server gets to its accept loop.** For every command line, every
answer of the kernel and whatever descriptors it is started with: it is no more
than one argument, of which every option is `d`; some address is usable; both
handlers are set and `listen` works; and with `-d` either `fork` fails, and the
server stays in the foreground, or the child's calls succeed and the socket is no
standard descriptor. -/
theorem main_accepts (args : List String) (env : StartEnv) (fds : FdTable Referent) :
    (∃ hSockfd d', mainStart args env fds = .accepting hSockfd d') ↔
      args.length ≤ 1 ∧ ∃ bDaemonize, optLoop (args.flatMap optChars) false = some bDaemonize ∧
        Reaches env bDaemonize (bindToAddress env.getaddrinfo env.bindLog ⟨fds, none⟩) := by
  constructor
  · rintro ⟨hSockfd, d', h⟩
    obtain ⟨hlen, bDaemonize, hopts, hbinds⟩ := mainStart_eq_accepting.mp h
    obtain ⟨hbound, hdetach, hsigint, hsigterm, rfl, hlistens⟩ := mainBinds_eq_accepting.mp hbinds
    obtain ⟨as, n, -, -, hn, -, href, hsince⟩ := bindToAddress_socket hbound
    rw [hn, listens_iff hdetach href, hdetach.keeps hsince href] at hlistens
    refine ⟨hlen, bDaemonize, hopts, hbound, hsigint, hsigterm, hlistens.1, fun hd => ?_⟩
    rcases hlistens.2 hd with hfailed | hlt
    · exact .inl hfailed
    · cases hdetach with
      | foreground hd' => simp [hd] at hd'
      | failed _ hfork => exact .inl hfork
      | daemon _ hfork hworks => exact .inr ⟨hfork, hworks, by omega⟩
  · rintro ⟨hlen, bDaemonize, hopts, hbound, hsigint, hsigterm, hlisten, hdaemon⟩
    obtain ⟨as, n, -, -, hn, -, href, hsince⟩ := bindToAddress_socket hbound
    rw [hn] at hdaemon
    obtain ⟨d', hdetach⟩ := exists_detaches _ fun hd =>
      (hdaemon hd).imp_right fun ⟨hfork, hworks, _⟩ => ⟨hfork, hworks⟩
    have hkept : bDaemonize = true → env.daemon.fork = .failed ∨ 2 < n := by
      intro hd
      rcases hdaemon hd with hfailed | ⟨-, -, hlt⟩
      · exact .inl hfailed
      · exact .inr (by omega)
    have hlistens : env.listens n d'.fds = true :=
      (listens_iff hdetach href).mpr ⟨hlisten, (hdetach.keeps hsince href).mpr hkept⟩
    exact ⟨n, d', mainStart_eq_accepting.mpr ⟨hlen, bDaemonize, hopts,
      mainBinds_eq_accepting.mpr ⟨hbound, hdetach, hsigint, hsigterm, hn, hlistens⟩⟩⟩

/-- **With what the server gets to its accept loop.** Its socket is that of the
first usable address, on a descriptor that was free; what else was open from 3 on
is open still. And without `-d` nothing else changed since `bind_to_address`; with
`-d` and a `fork` that failed there were two messages more; and a daemon has its
socket on no standard descriptor, and each of these is `/dev/null`, or the
connection of `syslog`, or closed, which only that number can be on which
`/dev/null` was opened, or that on which `syslog` had its connection. -/
theorem main_accepts_on {args : List String} {env : StartEnv} {fds : FdTable Referent}
    {hSockfd : Int} {d' : Descriptors} (h : mainStart args env fds = .accepting hSockfd d') :
    let d := (bindToAddress env.getaddrinfo env.bindLog ⟨fds, none⟩).descriptors
    ∃ (as : List AddrCalls) (n : Nat), env.getaddrinfo = some as ∧
      as.findIdx AddrCalls.usable < as.length ∧ hSockfd = n ∧ fds.ref n = none ∧
      d'.fds.ref n = some (.socket (as.findIdx AddrCalls.usable)) ∧
      (∀ m x, 2 < m → fds.ref m = some x → d'.fds.ref m = some x) ∧
      (optLoop (args.flatMap optChars) false = some false ∧ d' = d ∨
        optLoop (args.flatMap optChars) false = some true ∧
          (env.daemon.fork = .failed ∧
              d' = (d.syslog env.daemon.log).syslog env.daemonLog ∨
            env.daemon.fork = .child ∧ 2 < n ∧ ∀ m, m ≤ 2 →
              d'.fds.ref m = some .devNull ∨
              d'.fds.ref m = some .devLog ∧ d'.logFile = some m ∨
              d'.fds.ref m = none ∧
                (m = env.daemon.nullFd d.fds ∨ d.logFile = some m))) := by
  intro d
  obtain ⟨-, bDaemonize, hopts, hbinds⟩ := mainStart_eq_accepting.mp h
  obtain ⟨hbound, hdetach, -, -, rfl, hlistens⟩ := mainBinds_eq_accepting.mp hbinds
  obtain ⟨as, n, hgai, hfirst, hn, hfree, href, hsince⟩ := bindToAddress_socket hbound
  rw [hn, listens_iff hdetach href] at hlistens
  refine ⟨as, n, hgai, hfirst, hn, hfree, hlistens.2,
    fun m x hm hat => hdetach.keeps_given hsince hm hat, ?_⟩
  have hkept := (hdetach.keeps hsince href).mp hlistens.2
  rw [hopts]
  cases hdetach with
  | foreground hd => exact .inl ⟨by rw [hd], rfl⟩
  | failed hd hfork => exact .inr ⟨by rw [hd], .inl ⟨hfork, rfl⟩⟩
  | daemon hd hfork hworks =>
      refine .inr ⟨by rw [hd], .inr ⟨hfork, ?_, fun m hm => daemon_standard hworks hm⟩⟩
      exact (hkept hd).resolve_left (by simp [hfork])

/-- The descriptor that the first `accept` returns. -/
def Started.nextFd : Started → Option Nat
  | .exit _ => none
  | .accepting _ d => some d.fds.lowest

/-- The standard streams of a terminal. -/
def terminal : FdTable Referent where
  ref n := if n < 3 then some (.given n) else none
  bound := 3
  free := fun n hn => if_neg (by omega)

/-- A daemon whose first address was in use, and whose `fcloseall` closed the
standard streams: `syslog` has a descriptor since then, and so the clients start at
descriptor 0. -/
theorem main_accepts_on_daemon :
    let log : LogCall := ⟨true, true⟩
    let env : StartEnv := ⟨some [⟨true, true, false, log⟩, ⟨true, true, true, log⟩], log,
      ⟨.child, true, true, true, [0, 1, 2], true, fun _ => true, true, log, log, log, by decide⟩,
      log, true, true, true⟩
    let d := (bindToAddress env.getaddrinfo env.bindLog ⟨terminal, none⟩).descriptors
    ∃ hSockfd d', mainStart ["-d"] env terminal = .accepting hSockfd d' ∧
      d'.fds.lowest = 0 ∧ ∃ (as : List AddrCalls) (n : Nat), env.getaddrinfo = some as ∧
        as.findIdx AddrCalls.usable < as.length ∧ hSockfd = n ∧ terminal.ref n = none ∧
        d'.fds.ref n = some (.socket (as.findIdx AddrCalls.usable)) ∧
        (∀ m x, 2 < m → terminal.ref m = some x → d'.fds.ref m = some x) ∧
        (∀ m, m ≤ 2 → d'.fds.ref m = some .devNull ∨
          d'.fds.ref m = some .devLog ∧ d'.logFile = some m ∨
          d'.fds.ref m = none ∧ (m = env.daemon.nullFd d.fds ∨ d.logFile = some m)) := by
  intro log env d
  have h : (mainStart ["-d"] env terminal).nextFd = some 0 := by decide
  cases hs : mainStart ["-d"] env terminal with
  | exit code =>
      rw [hs] at h
      cases h
  | accepting hSockfd d' =>
      rw [hs] at h
      obtain ⟨as, n, hgai, hfirst, hn, hfree, href, hopen, hcase⟩ := main_accepts_on hs
      refine ⟨hSockfd, d', rfl, Option.some.inj h, as, n, hgai, hfirst, hn, hfree, href, hopen, ?_⟩
      rcases hcase with ⟨hopts, -⟩ | ⟨-, ⟨hfork, -⟩ | ⟨-, -, hstandard⟩⟩
      · exact absurd hopts (by decide)
      · cases hfork
      · exact hstandard

end Aesd.Server
