import Aesd.Server.Shutdown

/-!
# The server runs out of descriptors

The kernel lets a process have so many descriptors, and `accept` fails when all
are in use. The server closes none of a client, whether the client is still there
or not. So it accepts that many connections in its whole life, one less for the
socket it listens on, and then `main` leaves its loop (`accepts_bounded`).
-/

namespace Aesd.Server

open Aesd.Lib

/-- `accept` returns a descriptor only while fewer than `limit` are open. -/
def WithinLimit (limit : Nat) (s : Process) (act : ProcessAct) : Prop :=
  s.pc = .accept → act = .main .descriptor → s.openFds.length < limit

/-- `main` has left its loop. -/
def MainPc.left : MainPc → Bool
  | .cleanup | .cleanupJoin _ | .cleanupFree _ | .close | .done _ => true
  | _ => false

section
variable {s s' : Process} {acts : List ProcessAct} {outs : List (Option Event)}

/-- An `accept` that fails ends the loop, for good. -/
theorem Process.resume_left {r : MainResp} (h : s.resume r = some s')
    (hpc : s.pc = .accept ∨ s.pc.left = true) :
    s.pc = .accept ∧ r = .descriptor ∨ s'.pc.left = true := by
  cases Process.resume_cases h with
  | accepted hacc => exact .inl ⟨hacc, rfl⟩
  | notAccepted | empty | first | cleanupJoined | cleanupFreed | closed => exact .inr rfl
  | goOn hp | noMore hp | noMemory hp | entry hp | created hp | notCreated hp | freedFailed hp
  | swept hp | complete hp | running hp | sweepJoined hp | sweepFreed hp =>
      rw [hp] at hpc
      rcases hpc with hpc | hpc <;> cases hpc

theorem MainStep.accepted_le {r : MainResp} (h : MainStep s r s') :
    s.pc = .accept ∧ r = .descriptor ∧ s'.accepted = s.accepted + 1 ∨
      s'.accepted = s.accepted := by
  cases h with
  | quiet hup hup' hthreads hvals hopen haccepted hjoined => exact .inr haccepted
  | accepted hpc => exact .inl ⟨hpc, rfl, rfl⟩
  | gaveUp hpc => exact .inr rfl
  | entry hpc hp hs =>
      subst hs
      exact .inr rfl
  | thread hpc hp hup' hfree hthreads hvals hopen haccepted => exact .inr haccepted
  | noThread hpc => exact .inr rfl
  | freed hpc hup' hfree hs =>
      right
      rw [hs]

theorem Process.resume_accepts {r : MainResp} (h : s.resume r = some s') :
    (s.pc = .accept ∧ r = .descriptor ∧ s'.accepted = s.accepted + 1) ∨
      (s.pc = .accept ∧ s'.accepted = s.accepted ∧ s'.pc.left = true) ∨
      (s.pc ≠ .accept ∧ s'.accepted = s.accepted ∧ (s.pc.left = true → s'.pc.left = true)) := by
  by_cases hpc : s.pc = .accept
  · rcases Process.resume_left h (.inl hpc) with ⟨-, rfl⟩ | hleft
    · left
      simp only [Process.resume, hpc] at h
      cases h
      exact ⟨hpc, rfl, rfl⟩
    · rcases (Process.resume_mainStep h).accepted_le with haccepted | haccepted
      · exact .inl haccepted
      · exact .inr (.inl ⟨hpc, haccepted, hleft⟩)
  · right
    right
    rcases (Process.resume_mainStep h).accepted_le with ⟨hacc, -⟩ | haccepted
    · exact absurd hacc hpc
    · refine ⟨hpc, haccepted, fun hleft => ?_⟩
      rcases Process.resume_left h (.inr hleft) with ⟨hacc, -⟩ | hleft'
      · exact absurd hacc hpc
      · exact hleft'

/-- While `main` accepts, the socket and every client it accepted are open. -/
theorem openFds_length (h : run Process.step .init acts = some (outs, s))
    (hpc : s.pc = .accept) : s.openFds.length = s.accepted + 1 := by
  have hclients : s.openFds.countP Fd.isClient = s.accepted := (run_books h).opened
  have hsocket : s.openFds.count .hSockfd = 1 :=
    (run_ended h).listening fun ret hdone => by rw [hpc] at hdone; cases hdone
  have hrest : s.openFds.countP (fun fd => decide ¬fd.isClient = true) = 1 := by
    rw [← hsocket, List.count]
    apply List.countP_congr
    intro fd _
    cases fd <;> simp [Fd.isClient]
  rw [List.length_eq_countP_add_countP Fd.isClient, hclients, hrest]

/-- What `main` accepted, and how often `accept` returned. -/
structure Accepts (limit : Nat) (outs : List (Option Event)) (s : Process) : Prop where
  within : 1 ≤ limit → s.accepted < limit
  calls : outs.countP isAccept ≤ s.accepted + if s.pc.left then 1 else 0

theorem accepts_init (limit : Nat) : Accepts limit [] .init where
  within := fun h => h
  calls := Nat.zero_le _

theorem Accepts.step {limit : Nat} (h : Accepts limit outs s) {act : ProcessAct}
    {out : Option Event} (hrun : run Process.step .init acts = some (outs, s))
    (hlimit : WithinLimit limit s act) (hs : s.step act = some (out, s')) :
    Accepts limit (outs ++ [out]) s' := by
  have hcalls := h.calls
  cases act with
  | main r =>
      simp only [Process.step, Option.bind_eq_bind, Option.bind_eq_some_iff] at hs
      obtain ⟨t, ht, hs⟩ := hs
      cases hs
      have hisAccept := s.mainCall_isAccept
      rcases Process.resume_accepts ht with ⟨hpc, rfl, haccepted⟩ | ⟨hpc, haccepted, hleft⟩ |
        ⟨hpc, haccepted, hleft⟩
      · have hlen := hlimit hpc rfl
        rw [openFds_length hrun hpc] at hlen
        refine ⟨fun _ => by omega, ?_⟩
        rw [hpc] at hcalls
        rw [List.countP_append, List.countP_singleton, if_pos (hisAccept.mpr hpc), haccepted]
        exact Nat.le_trans (Nat.succ_le_succ hcalls) (Nat.le_add_right ..)
      · refine ⟨fun hpos => haccepted ▸ h.within hpos, ?_⟩
        rw [hpc] at hcalls
        rw [List.countP_append, List.countP_singleton, if_pos (hisAccept.mpr hpc), haccepted,
          hleft]
        exact Nat.succ_le_succ hcalls
      · refine ⟨fun hpos => haccepted ▸ h.within hpos, ?_⟩
        rw [List.countP_append, List.countP_singleton, if_neg fun hc => hpc (hisAccept.mp hc),
          haccepted, Nat.add_zero]
        cases hl : s.pc.left with
        | false =>
            rw [hl] at hcalls
            exact Nat.le_trans hcalls (Nat.le_add_right ..)
        | true =>
            rw [hl] at hcalls
            rw [hleft hl]
            exact hcalls
  | thread tid r =>
      simp only [Process.step, Option.bind_eq_bind, Option.bind_eq_some_iff] at hs
      obtain ⟨⟨event, t⟩, ht, hs⟩ := hs
      cases hs
      have hquiet : isAccept (some event) = false := Process.threadStep_isAccept ht
      obtain ⟨_, _, _, _, -, -, -, rfl, -⟩ := Process.threadStep_eq_some ht
      refine ⟨h.within, ?_⟩
      rw [List.countP_append, List.countP_singleton, hquiet]
      exact hcalls
  | signal =>
      cases hs
      refine ⟨h.within, ?_⟩
      rw [List.countP_append]
      exact hcalls

end

/-- **The server serves so many clients.** In every run of a process that may have
`limit` descriptors, `main` accepts fewer than `limit` connections in all, however
many of them have ended, and `accept` returns at most `limit` times: after it
failed once `main` does not call it again. -/
theorem accepts_bounded {limit : Nat} (hpos : 1 ≤ limit) {acts : List ProcessAct}
    {outs : List (Option Event)} {s : Process}
    (h : run Process.step .init acts = some (outs, s))
    (hlimit : EachStep Process.step (fun s act _ _ => WithinLimit limit s act) .init acts) :
    s.accepted < limit ∧ outs.countP isAccept ≤ limit := by
  have hinv : Accepts limit outs s := by
    refine run_history (P := fun acts outs s =>
      EachStep Process.step (fun s act _ _ => WithinLimit limit s act) .init acts →
        Accepts limit outs s) ?_ ?_ h hlimit
    · exact fun _ => accepts_init limit
    · intro acts outs s act out s' hrun ih hs heach
      obtain ⟨hbefore, hact⟩ := (eachStep_snoc hrun hs).mp heach
      exact (ih hbefore).step hrun hact hs
  have hlt := hinv.within hpos
  have hcalls := hinv.calls
  refine ⟨hlt, ?_⟩
  split at hcalls <;> omega

/-- Two descriptors: the client gets no thread, and the second is not accepted. -/
theorem accepts_bounded_two :
    let acts : List ProcessAct := [.main .turn, .main .descriptor, .main .null, .main .turn,
      .main .turn, .main (.int (-1))]
    ∃ outs s, run Process.step .init acts = some (outs, s) ∧ s.pc = .cleanup ∧
      s.accepted < 2 ∧ outs.countP isAccept ≤ 2 := by
  intro acts
  have h : (run Process.step .init acts).map (fun p => p.2.pc) = some .cleanup := by decide
  obtain ⟨⟨outs, s⟩, hrun, hpc⟩ := Option.map_eq_some_iff.mp h
  refine ⟨outs, s, hrun, hpc, accepts_bounded (by decide) hrun ?_⟩
  rintro _ _ ⟨⟩
  refine ⟨fun _ hact => (by cases hact), ?_⟩
  rintro _ _ ⟨⟩
  refine ⟨fun _ _ => by decide, ?_⟩
  rintro _ _ ⟨⟩
  refine ⟨fun _ hact => (by cases hact), ?_⟩
  rintro _ _ ⟨⟩
  refine ⟨fun _ hact => (by cases hact), ?_⟩
  rintro _ _ ⟨⟩
  refine ⟨fun _ hact => (by cases hact), ?_⟩
  rintro _ _ ⟨⟩
  exact ⟨fun _ hact => (by cases hact), trivial⟩

end Aesd.Server
