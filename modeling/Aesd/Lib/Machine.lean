import Mathlib.Data.List.Induction
import Mathlib.Data.Option.Basic

/-!
# Machines

Runs of a partial step function. `step s i = some (r, s')` says that input
`i` takes state `s` to `s'` with output `r`; `none` says that `i` has no
defined effect in `s`. An input carries whatever the environment decides,
so a statement over all input lists is one over all runs.
-/

namespace Aesd.Lib

variable {σ ι ρ : Type*}

/-- The run of `step` over a list of inputs: the outputs in order and the
final state, or `none` as soon as one input has no defined effect. -/
def run (step : σ → ι → Option (ρ × σ)) : σ → List ι → Option (List ρ × σ)
  | s, [] => some ([], s)
  | s, i :: is => do
      let (r, s') ← step s i
      let (rs, s'') ← run step s' is
      return (r :: rs, s'')

/-- The outputs of a run up to the first input with no defined effect. -/
def outputs (step : σ → ι → Option (ρ × σ)) : σ → List ι → List ρ
  | _, [] => []
  | s, i :: is =>
      match step s i with
      | none => []
      | some (r, s') => r :: outputs step s' is

/-- States some run reaches. -/
def Reachable (step : σ → ι → Option (ρ × σ)) (s s' : σ) : Prop :=
  ∃ is rs, run step s is = some (rs, s')

section
variable {step : σ → ι → Option (ρ × σ)}

@[simp] theorem run_nil (s : σ) : run step s [] = some ([], s) := rfl

theorem run_cons {s s'' : σ} {i : ι} {is : List ι} {rs : List ρ} :
    run step s (i :: is) = some (rs, s'') ↔
      ∃ r s' rs', step s i = some (r, s') ∧
        run step s' is = some (rs', s'') ∧ rs = r :: rs' := by
  simp only [run, Option.bind_eq_bind, Option.bind_eq_some_iff]
  constructor
  · rintro ⟨⟨r, s'⟩, h1, ⟨rs', t⟩, h2, h3⟩
    cases h3
    exact ⟨r, s', rs', h1, h2, rfl⟩
  · rintro ⟨r, s', rs', h1, h2, rfl⟩
    exact ⟨(r, s'), h1, (rs', s''), h2, rfl⟩

theorem run_append {s s'' : σ} {is js : List ι} {rs : List ρ} :
    run step s (is ++ js) = some (rs, s'') ↔
      ∃ rs₁ s' rs₂, run step s is = some (rs₁, s') ∧
        run step s' js = some (rs₂, s'') ∧ rs = rs₁ ++ rs₂ := by
  induction is generalizing s rs with
  | nil =>
      constructor
      · intro h
        exact ⟨[], s, rs, rfl, h, rfl⟩
      · rintro ⟨rs₁, s', rs₂, h1, h2, rfl⟩
        cases h1
        exact h2
  | cons i is ih =>
      rw [List.cons_append, run_cons]
      constructor
      · rintro ⟨r, s', rs', h1, h2, rfl⟩
        obtain ⟨rs₁, t, rs₂, h3, h4, rfl⟩ := ih.mp h2
        exact ⟨r :: rs₁, t, rs₂, run_cons.mpr ⟨r, s', rs₁, h1, h3, rfl⟩, h4, rfl⟩
      · rintro ⟨rs₁, t, rs₂, h1, h2, rfl⟩
        obtain ⟨r, s', rs', h3, h4, rfl⟩ := run_cons.mp h1
        exact ⟨r, s', rs' ++ rs₂, h3, ih.mpr ⟨rs', t, rs₂, h4, h2, rfl⟩, rfl⟩

theorem run_snoc {s s'' : σ} {is : List ι} {i : ι} {rs : List ρ} :
    run step s (is ++ [i]) = some (rs, s'') ↔
      ∃ rs' s' r, run step s is = some (rs', s') ∧
        step s' i = some (r, s'') ∧ rs = rs' ++ [r] := by
  rw [run_append]
  constructor
  · rintro ⟨rs₁, s', rs₂, h1, h2, rfl⟩
    obtain ⟨r, t, rs', h3, h4, rfl⟩ := run_cons.mp h2
    cases h4
    exact ⟨rs₁, s', r, h1, h3, rfl⟩
  · rintro ⟨rs', s', r, h1, h2, rfl⟩
    exact ⟨rs', s', [r], h1, run_cons.mpr ⟨r, s'', [], h2, rfl, rfl⟩, rfl⟩

theorem run_length {s s' : σ} {is : List ι} {rs : List ρ}
    (h : run step s is = some (rs, s')) : rs.length = is.length := by
  induction is generalizing s rs with
  | nil =>
      cases h
      rfl
  | cons i is ih =>
      obtain ⟨r, t, rs', _, h2, rfl⟩ := run_cons.mp h
      simp [ih h2]

theorem Reachable.refl (s : σ) : Reachable step s s := ⟨[], [], rfl⟩

theorem Reachable.trans {s t u : σ} (h : Reachable step s t)
    (h' : Reachable step t u) : Reachable step s u := by
  obtain ⟨is, rs, h1⟩ := h
  obtain ⟨js, qs, h2⟩ := h'
  exact ⟨is ++ js, rs ++ qs, run_append.mpr ⟨rs, t, qs, h1, h2, rfl⟩⟩

/-- **The invariant rule.** -/
theorem run_invariant {I : σ → Prop}
    (hstep : ∀ s i r s', I s → step s i = some (r, s') → I s')
    {s s' : σ} {is : List ι} {rs : List ρ} (hs : I s)
    (h : run step s is = some (rs, s')) : I s' := by
  induction is generalizing s rs with
  | nil =>
      cases h
      exact hs
  | cons i is ih =>
      obtain ⟨r, t, rs', h1, h2, rfl⟩ := run_cons.mp h
      exact ih (hstep s i r t hs h1) h2

/-- **The history rule**: an invariant that also speaks of the inputs
consumed and the outputs produced so far. -/
theorem run_history {s₀ : σ} {P : List ι → List ρ → σ → Prop} (h0 : P [] [] s₀)
    (hstep : ∀ is rs s i r s', run step s₀ is = some (rs, s) → P is rs s →
      step s i = some (r, s') → P (is ++ [i]) (rs ++ [r]) s')
    {is : List ι} {rs : List ρ} {s : σ} (h : run step s₀ is = some (rs, s)) :
    P is rs s := by
  induction is using List.reverseRecOn generalizing rs s with
  | nil =>
      cases h
      exact h0
  | append_singleton is i ih =>
      obtain ⟨rs', s', r, h1, h2, rfl⟩ := run_snoc.mp h
      exact hstep is rs' s' i r s h1 (ih h1) h2

/-- Every step of the run over some inputs is a `P` step. -/
def EachStep (step : σ → ι → Option (ρ × σ)) (P : σ → ι → ρ → σ → Prop) :
    σ → List ι → Prop
  | _, [] => True
  | s, i :: is => ∀ r s', step s i = some (r, s') → P s i r s' ∧ EachStep step P s' is

theorem eachStep_snoc {P : σ → ι → ρ → σ → Prop} {s s' s'' : σ} {is : List ι}
    {rs : List ρ} {i : ι} {r : ρ} (hr : run step s is = some (rs, s'))
    (hs : step s' i = some (r, s'')) :
    EachStep step P s (is ++ [i]) ↔ EachStep step P s is ∧ P s' i r s'' := by
  induction is generalizing s rs with
  | nil =>
      cases hr
      constructor
      · intro h
        exact ⟨trivial, (h r s'' hs).1⟩
      · rintro ⟨-, hp⟩ r' t ht
        rw [hs] at ht
        cases ht
        exact ⟨hp, trivial⟩
  | cons j is ih =>
      obtain ⟨q, t, rs', h1, h2, rfl⟩ := run_cons.mp hr
      constructor
      · intro h
        obtain ⟨hp, hrest⟩ := h q t h1
        obtain ⟨hrest, hlast⟩ := (ih h2).mp hrest
        refine ⟨fun q' t' h1' => ?_, hlast⟩
        rw [h1] at h1'
        cases h1'
        exact ⟨hp, hrest⟩
      · rintro ⟨h, hlast⟩ q' t' h1'
        rw [h1] at h1'
        cases h1'
        obtain ⟨hp, hrest⟩ := h q t h1
        exact ⟨hp, (ih h2).mpr ⟨hrest, hlast⟩⟩

/-- **The step-by-step rule**: two properties of steps agree along a run if
they agree on every step from a state with `I`, and keep `I`. `G` is what is
known of every step. -/
theorem eachStep_iff {I : σ → Prop} {G P Q : σ → ι → ρ → σ → Prop}
    (hstep : ∀ s i r s', I s → G s i r s' → step s i = some (r, s') →
      (P s i r s' ↔ Q s i r s') ∧ (P s i r s' → I s'))
    {s : σ} {is : List ι} (hs : I s) (hG : EachStep step G s is) :
    EachStep step P s is ↔ EachStep step Q s is := by
  induction is generalizing s with
  | nil => exact Iff.rfl
  | cons i is ih =>
      constructor
      · intro h r s' h1
        obtain ⟨hg, hG'⟩ := hG r s' h1
        obtain ⟨hp, hrest⟩ := h r s' h1
        obtain ⟨hiff, hI⟩ := hstep s i r s' hs hg h1
        exact ⟨hiff.mp hp, (ih (hI hp) hG').mp hrest⟩
      · intro h r s' h1
        obtain ⟨hg, hG'⟩ := hG r s' h1
        obtain ⟨hq, hrest⟩ := h r s' h1
        obtain ⟨hiff, hI⟩ := hstep s i r s' hs hg h1
        have hp := hiff.mpr hq
        exact ⟨hp, (ih (hI hp) hG').mpr hrest⟩

theorem outputs_of_run {s s' : σ} {is : List ι} {rs : List ρ}
    (h : run step s is = some (rs, s')) : outputs step s is = rs := by
  induction is generalizing s rs with
  | nil =>
      cases h
      rfl
  | cons i is ih =>
      obtain ⟨r, t, rs', h1, h2, rfl⟩ := run_cons.mp h
      simp [outputs, h1, ih h2]

/-- **The progress rule**: inputs that are defined wherever `I` holds, and
keep it as long as the output is a `G` one, run to their end if no output
along the way is bad. -/
theorem run_progress {I : σ → Prop} {G : ρ → Prop} {is : List ι}
    (hstep : ∀ s, I s → ∀ i ∈ is, ∃ r s', step s i = some (r, s') ∧
      (G r → I s')) {s : σ} (hs : I s)
    (hgood : ∀ r ∈ outputs step s is, G r) :
    ∃ rs s', run step s is = some (rs, s') := by
  induction is generalizing s with
  | nil => exact ⟨[], s, rfl⟩
  | cons i is ih =>
      obtain ⟨r, s', h1, h2⟩ := hstep s hs i (by simp)
      have hout : outputs step s (i :: is) = r :: outputs step s' is := by
        simp [outputs, h1]
      rw [hout] at hgood
      obtain ⟨rs, s'', h3⟩ := ih (fun t ht j hj => hstep t ht j (by simp [hj]))
        (h2 (hgood r (by simp))) (fun q hq => hgood q (by simp [hq]))
      exact ⟨r :: rs, s'', run_cons.mpr ⟨r, s', rs, h1, h3, rfl⟩⟩

/-- **The termination rule**: if from every state with `I` that is not final
some input leads on and makes the measure smaller, some run ends in a final
state. -/
theorem run_terminates {α : Type*} {r : α → α → Prop} (hwf : WellFounded r)
    {I : σ → α → Prop} {F : σ → Prop}
    (hstep : ∀ s m, I s m → ¬ F s →
      ∃ i q s' m', step s i = some (q, s') ∧ I s' m' ∧ r m' m)
    {s : σ} {m : α} (h : I s m) :
    ∃ is rs s', run step s is = some (rs, s') ∧ F s' := by
  induction m using hwf.induction generalizing s with
  | _ m ih =>
      by_cases hF : F s
      · exact ⟨[], [], s, rfl, hF⟩
      · obtain ⟨i, q, s', m', hs, h', hlt⟩ := hstep s m h hF
        obtain ⟨is, rs, t, hrun, ht⟩ := ih m' hlt h'
        exact ⟨i :: is, q :: rs, t, run_cons.mpr ⟨q, s', rs, hs, hrun, rfl⟩, ht⟩

/-- **Where a run stops being defined**: at one input, after a run over the
inputs before it. -/
theorem run_eq_none_iff {s : σ} {is : List ι} :
    run step s is = none ↔ ∃ before i after rs s', is = before ++ i :: after ∧
      run step s before = some (rs, s') ∧ step s' i = none := by
  induction is generalizing s with
  | nil => simp
  | cons i is ih =>
      cases hi : step s i with
      | none =>
          constructor
          · intro _
            exact ⟨[], i, is, [], s, rfl, rfl, hi⟩
          · intro _
            simp [run, hi]
      | some p =>
          obtain ⟨r, t⟩ := p
          have hrun : run step s (i :: is) = none ↔ run step t is = none := by
            cases h : run step t is <;> simp [run, hi, h]
          rw [hrun, ih]
          constructor
          · rintro ⟨before, j, after, rs, s', rfl, h, hj⟩
            exact ⟨i :: before, j, after, r :: rs, s', rfl,
              run_cons.mpr ⟨r, t, rs, hi, h, rfl⟩, hj⟩
          · rintro ⟨before, j, after, rs, s', heq, h, hj⟩
            cases before with
            | nil =>
                cases heq
                cases h
                rw [hi] at hj
                cases hj
            | cons k before =>
                cases heq
                obtain ⟨q, u, qs, hk, h, rfl⟩ := run_cons.mp h
                rw [hi] at hk
                cases hk
                exact ⟨before, j, after, qs, s', rfl, h, hj⟩

/-- What is left of a list when some of the elements that may go are taken out,
and of the others, which stay, none. -/
inductive Purged {α : Type*} (stays goes : α → Prop) : List α → List α → Prop where
  | nil : Purged stays goes [] []
  | keep {x : α} {xs kept : List α} : stays x → Purged stays goes xs kept →
      Purged stays goes (x :: xs) (x :: kept)
  | drop {x : α} {xs kept : List α} : goes x → Purged stays goes xs kept →
      Purged stays goes (x :: xs) kept

/-- **The purge rule**: a machine that goes along with the steps that may stay,
and need not with those that may go, goes along with what is left of a run. -/
theorem run_purged {τ : Type*} {step' : τ → ι → Option (ρ × τ)} {R : σ → τ → Prop}
    {stays goes : ι × ρ → Prop}
    (hkeep : ∀ s t i r s', R s t → step s i = some (r, s') → stays (i, r) →
      ∃ t', step' t i = some (r, t') ∧ R s' t')
    (hdrop : ∀ s t i r s', R s t → step s i = some (r, s') → goes (i, r) → R s' t)
    {s s' : σ} {t : τ} {is : List ι} {rs : List ρ} (h : R s t)
    (hr : run step s is = some (rs, s')) {kept : List (ι × ρ)}
    (hkept : Purged stays goes (is.zip rs) kept) :
    ∃ t', run step' t (kept.map Prod.fst) = some (kept.map Prod.snd, t') ∧ R s' t' := by
  induction is generalizing s t rs kept with
  | nil =>
      cases hr
      cases hkept
      exact ⟨t, rfl, h⟩
  | cons i is ih =>
      obtain ⟨r, u, rs', h1, h2, rfl⟩ := run_cons.mp hr
      rw [List.zip_cons_cons] at hkept
      cases hkept with
      | keep hstays hrest =>
          obtain ⟨t', ht', hu⟩ := hkeep s t i r u h h1 hstays
          obtain ⟨t'', hrun, hs'⟩ := ih hu h2 hrest
          exact ⟨t'', run_cons.mpr ⟨r, t', _, ht', hrun, rfl⟩, hs'⟩
      | drop hgoes hrest => exact ih (hdrop s t i r u h h1 hgoes) h2 hrest

end

/-! ## Two machines in step -/

section
variable {τ : Type*} {step : σ → ι → Option (ρ × σ)} {step' : τ → ι → Option (ρ × τ)}

/-- The results of two machines agree: both undefined, or the same output and
states related by `R`. -/
abbrev Lockstep {α : Type*} (R : σ → τ → Prop) (x : Option (α × σ))
    (y : Option (α × τ)) : Prop :=
  Option.Rel (fun p q => p.1 = q.1 ∧ R p.2 q.2) x y

theorem Lockstep.of_some_left {α : Type*} {R : σ → τ → Prop} {y : Option (α × τ)}
    {r : α} {s' : σ} (h : Lockstep R (some (r, s')) y) :
    ∃ t', y = some (r, t') ∧ R s' t' := by
  cases h with
  | @some _ q hpq => exact ⟨q.2, by rw [show r = q.1 from hpq.1], hpq.2⟩

theorem Lockstep.of_some_right {α : Type*} {R : σ → τ → Prop} {x : Option (α × σ)}
    {r : α} {t' : τ} (h : Lockstep R x (some (r, t'))) :
    ∃ s', x = some (r, s') ∧ R s' t' := by
  cases h with
  | @some p _ hpq => exact ⟨p.2, by rw [show r = p.1 from hpq.1.symm], hpq.2⟩

/-- **The lockstep rule**: machines whose single steps agree have runs that
agree, and end in related states. -/
theorem run_lockstep {R : σ → τ → Prop}
    (hstep : ∀ s t i, R s t → Lockstep R (step s i) (step' t i))
    {s : σ} {t : τ} (h : R s t) (is : List ι) :
    Lockstep R (run step s is) (run step' t is) := by
  induction is generalizing s t with
  | nil => exact .some ⟨rfl, h⟩
  | cons i is ih =>
      have hi := hstep s t i h
      simp only [run]
      generalize step s i = x at hi ⊢
      generalize step' t i = y at hi ⊢
      cases hi with
      | none => exact .none
      | @some p q hpq =>
          obtain ⟨r, s'⟩ := p
          obtain ⟨r', t'⟩ := q
          obtain ⟨rfl, hst⟩ := hpq
          have hrest := ih hst
          simp only [Option.bind_eq_bind, Option.bind_some]
          generalize run step s' is = x at hrest ⊢
          generalize run step' t' is = y at hrest ⊢
          cases hrest with
          | none => exact .none
          | some hpq => exact .some ⟨by rw [hpq.1], hpq.2⟩

/-- Machines in lockstep cannot be told apart by their outputs. -/
theorem run_outputs_eq {R : σ → τ → Prop}
    (hstep : ∀ s t i, R s t → Lockstep R (step s i) (step' t i))
    {s : σ} {t : τ} (h : R s t) (is : List ι) :
    (run step s is).map Prod.fst = (run step' t is).map Prod.fst := by
  have hrel := run_lockstep hstep h is
  generalize run step s is = x at hrel ⊢
  generalize run step' t is = y at hrel ⊢
  cases hrel with
  | none => rfl
  | some hpq => simp [hpq.1]

theorem run_of_lockstep {R : σ → τ → Prop}
    (hstep : ∀ s t i, R s t → Lockstep R (step s i) (step' t i))
    {s s' : σ} {t : τ} (h : R s t) {is : List ι} {rs : List ρ}
    (hr : run step s is = some (rs, s')) :
    ∃ t', run step' t is = some (rs, t') ∧ R s' t' := by
  have hrel := run_lockstep hstep h is
  rw [hr] at hrel
  exact hrel.of_some_left

end

/-! ## One machine inside another -/

section
variable {τ κ θ α : Type*} {step : σ → ι → Option (ρ × σ)}
  {step' : τ → κ → Option (θ × τ)}

/-- **The simulation rule**: a machine each of whose steps is some run of
another, with the same visible events, has only runs that are runs of the
other. `seen` and `seen'` pick the events out of the outputs. -/
theorem run_simulates {R : σ → τ → Prop} {seen : ρ → List α} {seen' : θ → List α}
    (hstep : ∀ s t i r s', R s t → step s i = some (r, s') →
      ∃ js qs t', run step' t js = some (qs, t') ∧ qs.flatMap seen' = seen r ∧ R s' t')
    {s s' : σ} {t : τ} {is : List ι} {rs : List ρ} (h : R s t)
    (hr : run step s is = some (rs, s')) :
    ∃ js qs t', run step' t js = some (qs, t') ∧
      qs.flatMap seen' = rs.flatMap seen ∧ R s' t' := by
  induction is generalizing s t rs with
  | nil =>
      cases hr
      exact ⟨[], [], t, rfl, rfl, h⟩
  | cons i is ih =>
      obtain ⟨r, u, rs', h1, h2, rfl⟩ := run_cons.mp hr
      obtain ⟨js, qs, t', hjs, hseen, hu⟩ := hstep s t i r u h h1
      obtain ⟨js', qs', t'', hjs', hseen', hs'⟩ := ih hu h2
      refine ⟨js ++ js', qs ++ qs', t'', ?_, ?_, hs'⟩
      · exact run_append.mpr ⟨qs, t', qs', hjs, hjs', rfl⟩
      · rw [List.flatMap_append, hseen, hseen', List.flatMap_cons]

end

end Aesd.Lib
