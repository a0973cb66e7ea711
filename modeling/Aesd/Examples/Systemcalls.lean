import Aesd.Lib.Fds

/-!
# Commands in a child process

`do_system`, `do_exec` and `do_exec_redirect` of `examples/systemcalls`. A child
runs a command, or exits with 1, and the parent decodes its wait status.
`do_exec_redirect` gives the command the output file as descriptor 1, except where
1 is the number that `open` returns, which is closed again
(`doExecRedirect_iff`).
-/

namespace Aesd.Examples

open Aesd.Lib

/-! ## Wait statuses -/

/-- How a process ends: by `exit`, or killed by a signal. -/
inductive Termination where
  | exited (status : Int)
  | signaled (sig : Nat) (core : Bool) (h : 0 < sig ∧ sig < 127)

/-- The status that `waitpid` stores. -/
def Termination.waitStatus : Termination → Nat
  | .exited status => (status % 256).toNat <<< 8
  | .signaled sig core _ => sig + if core then 128 else 0

/-- `WTERMSIG`. -/
def wTermSig (status : Nat) : Nat := status &&& 0x7f

/-- `WIFEXITED`. -/
def wIfExited (status : Nat) : Bool := wTermSig status = 0

/-- `WEXITSTATUS`. -/
def wExitStatus (status : Nat) : Nat := (status &&& 0xff00) >>> 8

/-- A command that succeeded. -/
def Termination.success : Termination → Bool
  | .exited status => status % 256 = 0
  | .signaled _ _ _ => false

theorem wTermSig_eq (status : Nat) : wTermSig status = status % 128 :=
  Nat.and_two_pow_sub_one_eq_mod status 7

theorem wExitStatus_eq (status : Nat) : wExitStatus status = status / 256 % 256 := by
  rw [wExitStatus, Nat.shiftRight_and_distrib, Nat.shiftRight_eq_div_pow]
  exact Nat.and_two_pow_sub_one_eq_mod (status / 256) 8

/-- **The status says** whether the command succeeded. -/
theorem success_iff (t : Termination) :
    wIfExited t.waitStatus = true ∧ wExitStatus t.waitStatus = 0 ↔ t.success = true := by
  simp only [wIfExited, wTermSig_eq, wExitStatus_eq, decide_eq_true_eq]
  cases t with
  | exited status =>
      simp only [Termination.waitStatus, Termination.success, Nat.shiftLeft_eq, decide_eq_true_eq]
      omega
  | signaled sig core h =>
      simp only [Termination.waitStatus, Termination.success, Bool.false_eq_true, iff_false]
      split <;> omega

/-! ## The parent -/

/-- What `fork` and `waitpid` do. -/
structure WaitEnv where
  fork : Bool
  waitpid : Bool

/-- What a parent returns, whose child ends so. -/
def waitFor (env : WaitEnv) (child : Termination) : Bool :=
  env.fork && env.waitpid && wIfExited child.waitStatus && wExitStatus child.waitStatus == 0

/-- What `system` does with a command: no child, or one whose shell ends. -/
abbrev SystemCall := String → Option Termination

/-- `do_system`. Without a command it returns false, whether there is a shell or
not. -/
def doSystem (system : SystemCall) (cmd : Option String) : Bool :=
  match cmd with
  | none => false
  | some cmd =>
      match system cmd with
      | none => false
      | some child => wIfExited child.waitStatus && wExitStatus child.waitStatus == 0

/-- What `execv` does with a path and arguments, in a process with these
descriptors: it fails, or the command runs to its end. -/
abbrev Exec (α : Type) := Option String → List String → FdTable α → Option Termination

section
variable {α : Type}

/-- The child from its `execv` on. -/
def execChild (execv : Exec α) (command : List String) (fds : FdTable α) : Termination :=
  (execv command.head? command fds).getD (.exited 1)

/-- `do_exec`. -/
def doExec (env : WaitEnv) (execv : Exec α) (command : List String) (fds : FdTable α) : Bool :=
  waitFor env (execChild execv command fds)

/-- The child of `do_exec_redirect`, which opens `outputfile` as `x`. -/
def redirectChild (execv : Exec α) (opened dup2 : Bool) (x : α) (command : List String)
    (fds : FdTable α) : Termination :=
  if opened then
    let (redirected, fds) := FdTable.redirect (fun _ => dup2) x [1] fds
    if redirected then execChild execv command fds else .exited 1
  else .exited 1

/-- `do_exec_redirect`. -/
def doExecRedirect (env : WaitEnv) (execv : Exec α) (opened dup2 : Bool) (x : α)
    (command : List String) (fds : FdTable α) : Bool :=
  waitFor env (redirectChild execv opened dup2 x command fds)

theorem waitFor_iff {env : WaitEnv} {child : Termination} :
    waitFor env child = true ↔
      env.fork = true ∧ env.waitpid = true ∧ child.success = true := by
  rw [← success_iff]
  simp [waitFor, and_assoc]

theorem execChild_success {execv : Exec α} {command : List String} {fds : FdTable α} :
    (execChild execv command fds).success = true ↔
      ∃ t, execv command.head? command fds = some t ∧ t.success = true := by
  cases h : execv command.head? command fds with
  | none => simp [execChild, h, Termination.success]
  | some t => simp [execChild, h]

/-- **When `do_system` returns true.** -/
theorem doSystem_iff (system : SystemCall) (cmd : Option String) :
    doSystem system cmd = true ↔
      ∃ c t, cmd = some c ∧ system c = some t ∧ t.success = true := by
  cases cmd with
  | none => simp [doSystem]
  | some c =>
      cases h : system c with
      | none => simp [doSystem, h]
      | some t =>
          rw [doSystem]
          simp [h, success_iff]

/-- **When `do_exec` returns true.** -/
theorem doExec_iff (env : WaitEnv) (execv : Exec α) (command : List String) (fds : FdTable α) :
    doExec env execv command fds = true ↔ env.fork = true ∧ env.waitpid = true ∧
      ∃ t, execv command.head? command fds = some t ∧ t.success = true := by
  rw [doExec, waitFor_iff, execChild_success]

/-- **When `do_exec_redirect` returns true**, and with what the command ran: `fork`,
`waitpid`, `open` and `dup2` work, and the command runs and exits with 0 modulo 256.
It runs with the descriptors of the parent, whose descriptor 1 is replaced by the
output file; but if 1 is the lowest number that is free, the file was opened as 1
and is closed again, and the command runs without it. -/
theorem doExecRedirect_iff (env : WaitEnv) (execv : Exec α) (opened dup2 : Bool) (x : α)
    (command : List String) (fds : FdTable α) :
    ∃ fds' : FdTable α,
      (∀ n, fds'.ref n = if n = fds.lowest then none
        else if n = 1 then some x else fds.ref n) ∧
      (doExecRedirect env execv opened dup2 x command fds = true ↔
        env.fork = true ∧ env.waitpid = true ∧ opened = true ∧ dup2 = true ∧
          ∃ t, execv command.head? command fds' = some t ∧ t.success = true) := by
  obtain ⟨fds', hredirect⟩ : ∃ fds', FdTable.redirect (fun _ => true) x [1] fds = (true, fds') :=
    ⟨_, Prod.ext (FdTable.redirect_eq_true.mpr fun _ _ => rfl) rfl⟩
  refine ⟨fds', fun n => ?_, ?_⟩
  · rw [FdTable.redirect_ref hredirect]
    simp only [List.mem_singleton]
  · rw [doExecRedirect, waitFor_iff]
    have hexit : ¬ (Termination.exited 1).success = true := by decide
    cases opened with
    | false => simp [redirectChild, hexit]
    | true =>
        cases dup2 with
        | false =>
            have hfails : ¬ (FdTable.redirect (fun _ => false) x [1] fds).1 = true := by
              rw [FdTable.redirect_eq_true]
              simp
            simp [redirectChild, hfails, hexit]
        | true => simp [redirectChild, hredirect, execChild_success]

end

end Aesd.Examples
