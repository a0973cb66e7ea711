import Aesd.Server.Commit

/-!
# Whole commits

The server with nothing between the lock and the unlock: a connection receives
a chunk, or commits the text it has and is sent the reply, in one step. How
the C library cuts a text into writes is an argument of the commit, as the log
depends on it: a cut after a newline makes two commands of one text. So is what
the stack held, which an `ioctl` reads where `sscanf` assigned nothing.

Each byte of the log is of one commit (`Serial.bytes_of_run`), and the commits
of a connection are those of its session (`Serial.done_of_run`).
-/

namespace Aesd.Server

open Aesd.Lib Aesd.Driver

/-! ## The machine -/

/-- What an action hands to the device. -/
def Action.text : Action → List UInt8
  | .write text => text
  | .ioctl _ => []

/-- A text cut into the pieces that are written, none of them empty. -/
def Action.CutInto (act : Action) (cut : List (List UInt8)) : Prop :=
  cut.flatten = act.text ∧ [] ∉ cut

instance (act : Action) (cut : List (List UInt8)) : Decidable (act.CutInto cut) :=
  inferInstanceAs (Decidable (_ ∧ _))

/-- The log, and of each connection the chunks received, whether the last of
them has yet to be committed, and what was sent back. -/
structure Serial (ι : Type) where
  log : CommandLog
  got : ι → List (List UInt8)
  due : ι → Bool
  outbox : ι → List UInt8

/-- What happens: a chunk is received, or the connection commits. -/
inductive SerialAct (ι : Type) where
  | receive (i : ι) (chunk : List UInt8)
  | commit (i : ι) (cut : List (List UInt8)) (fill : Nat → UInt8)

/-- The commits of a run, in order. -/
def commits {ι : Type} (outs : List (Option (ι × Action))) : List (ι × Action) :=
  outs.filterMap id

theorem commits_concat {ι : Type} (outs : List (Option (ι × Action)))
    (out : Option (ι × Action)) :
    commits (outs ++ [out]) = commits outs ++ out.toList := by
  rw [commits, List.filterMap_append]
  cases out <;> rfl

/-- The connection of a commit. -/
def committer {ι : Type} (out : Option (ι × Action)) : List ι := out.toList.map Prod.fst

theorem flatMap_committer {ι : Type} (outs : List (Option (ι × Action))) :
    outs.flatMap committer = (commits outs).map Prod.fst := by
  induction outs with
  | nil => rfl
  | cons out outs ih =>
      rw [List.flatMap_cons, ih]
      cases out <;> rfl

section
variable {ι : Type} [DecidableEq ι]

/-- No connection has received anything. -/
def Serial.init (log : CommandLog) : Serial ι :=
  ⟨log, fun _ => [], fun _ => false, fun _ => []⟩

/-- The action of a connection's text. -/
def Serial.action (s : Serial ι) (i : ι) : Action :=
  commitAction (session (s.got i)).text

/-- The state after a chunk. -/
def Serial.receive (s : Serial ι) (i : ι) (chunk : List UInt8) : Serial ι :=
  { s with
    got := Function.update s.got i (s.got i ++ [chunk])
    due := Function.update s.due i (decide (newline ∈ chunkText chunk)) }

/-- The state after a commit. -/
def Serial.commit (s : Serial ι) (i : ι) (cut : List (List UInt8)) (fill : Nat → UInt8) :
    Serial ι :=
  let log := cut.foldl CommandLog.write s.log
  { s with
    log
    due := Function.update s.due i false
    outbox := Function.update s.outbox i
      (s.outbox i ++ log.readFrom (startPos s.log fill (s.action i))) }

/-- One step; the output is what was committed, if anything was. -/
def Serial.step (s : Serial ι) : SerialAct ι → Option (Option (ι × Action) × Serial ι)
  | .receive i chunk =>
      if s.due i then none else some (none, s.receive i chunk)
  | .commit i cut fill =>
      if s.due i ∧ (s.action i).CutInto cut then
        some (some (i, s.action i), s.commit i cut fill)
      else none

/-- What connection `i` did in them. -/
def commitsOf (i : ι) (outs : List (Option (ι × Action))) : List Action :=
  ((commits outs).filter fun c => c.1 = i).map Prod.snd

theorem commitsOf_concat (i : ι) (outs : List (Option (ι × Action)))
    (out : Option (ι × Action)) :
    commitsOf i (outs ++ [out])
      = commitsOf i outs ++ (out.toList.filter fun c => c.1 = i).map Prod.snd := by
  rw [commitsOf, commits_concat, List.filter_append, List.map_append, commitsOf]

/-! ## What a run has done -/

section
variable {log : CommandLog} {acts : List (SerialAct ι)} {outs : List (Option (ι × Action))}
  {s : Serial ι}

/-- **The log is what was committed**: the bytes there were, then the texts in
the order of their commits. -/
theorem Serial.bytes_of_run (h : run Serial.step (.init log) acts = some (outs, s)) :
    s.log.bytes = log.bytes ++ (commits outs).flatMap fun c => c.2.text := by
  have hinit : (Serial.init log : Serial ι).log.bytes
      = log.bytes ++ (commits ([] : List (Option (ι × Action)))).flatMap fun c => c.2.text :=
    (List.append_nil _).symm
  refine run_history (P := fun _ outs s =>
    s.log.bytes = log.bytes ++ (commits outs).flatMap fun c => c.2.text) hinit ?_ h
  intro acts outs s act out s' _ ih hs
  rw [commits_concat, List.flatMap_append, ← List.append_assoc, ← ih]
  cases act with
  | receive i chunk =>
      simp only [Serial.step] at hs
      split at hs <;> cases hs
      simp [Serial.receive]
  | commit i cut fill =>
      simp only [Serial.step] at hs
      split at hs <;> cases hs
      rename_i hcut
      show (cut.foldl CommandLog.write s.log).bytes = _
      rw [CommandLog.foldl_write_bytes, hcut.2.1]
      simp

/-- Of a connection: a chunk is due if it has a newline and was not committed,
and the commits made are those of its session. -/
structure Serial.Done (s : Serial ι) (outs : List (Option (ι × Action))) (i : ι) : Prop where
  due : s.due i = true → Commits (s.got i)
  commits : commitsOf i outs =
    (if s.due i then (session (s.got i).dropLast).handled
      else (session (s.got i)).handled).flatten

/-- **The commits of a connection are its session's**, but for the one that is
due. -/
theorem Serial.done_of_run (h : run Serial.step (.init log) acts = some (outs, s)) (i : ι) :
    s.Done outs i := by
  refine run_history (P := fun _ outs s => Serial.Done s outs i) ⟨?_, ?_⟩ ?_ h
  · intro hd
    cases hd
  · rfl
  · intro acts outs s act out s' _ ih hs
    cases act with
    | receive j chunk =>
        simp only [Serial.step] at hs
        split at hs <;> cases hs
        rename_i hdue
        by_cases hj : i = j
        · subst hj
          have hc := ih.commits
          rw [if_neg hdue] at hc
          constructor
          · simp only [Serial.receive, Function.update_self, decide_eq_true_eq]
            intro hn
            exact ⟨_, _, rfl, hn⟩
          · rw [commitsOf_concat, hc]
            simp only [Serial.receive, Function.update_self, decide_eq_true_eq]
            split
            · simp
            · rename_i hn
              rw [session_handled_quiet hn]
              simp
        · refine ⟨?_, ?_⟩
          · simp only [Serial.receive, Function.update_of_ne hj]
            exact ih.due
          · rw [commitsOf_concat]
            simp only [Serial.receive, Function.update_of_ne hj]
            simpa using ih.commits
    | commit j cut fill =>
        simp only [Serial.step] at hs
        split at hs <;> cases hs
        rename_i hcut
        by_cases hj : i = j
        · subst hj
          have hc := ih.commits
          rw [if_pos hcut.1] at hc
          constructor
          · simp [Serial.commit]
          · rw [commitsOf_concat, hc]
            simp only [Serial.commit, Function.update_self]
            rw [(ih.due hcut.1).handled]
            simp [Serial.action]
        · refine ⟨?_, ?_⟩
          · simp only [Serial.commit, Function.update_of_ne hj]
            exact ih.due
          · rw [commitsOf_concat]
            simp only [Serial.commit, Function.update_of_ne hj]
            simpa [Ne.symm hj] using ih.commits

end

end

end Aesd.Server
