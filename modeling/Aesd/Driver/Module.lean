import Aesd.Driver.Safety

/-!
# Loading and unloading the module

`aesd_init_module`, `aesd_setup_cdev` and `aesd_cleanup_module`, with the
kernel's tables of device numbers and character devices. The module is loaded,
its device used, and unloaded, any number of times. A load that fails leaves no
trace, an unload takes back what its load registered, and the number it computes
from `aesd_major` is the one that was allocated (`module_lifecycle`).
-/

namespace Aesd.Driver

open Aesd.Lib

/-- `MKDEV`. -/
def mkdev (ma mi : Nat) : Nat := ma <<< 20 ||| mi

/-- `MAJOR`. -/
def major (dev : Nat) : Nat := dev >>> 20

/-- `aesd_minor`. -/
abbrev aesdMinor : Nat := 0

/-- What the kernel answers to a load: `alloc_chrdev_region` gives a major number
or an error, `cdev_add` gives 0 or an error; and the memory there is. -/
structure LoadEnv where
  allocChrdevRegion : Except Int Nat
  cdevAdd : Int
  limit : Nat
  limit_le : limit ≤ 2 ^ 56

/-- The kernel's tables, and the module: `aesd_major`, the device while the module
is loaded, and the memory as earlier unloads left it. -/
structure ModuleState where
  regions : List Nat
  cdevs : List Nat
  aesdMajor : Nat
  device : Option Device
  left : List Heap

/-- `aesd_setup_cdev`. -/
def aesdSetupCdev (m : ModuleState) (env : LoadEnv) : Int × ModuleState :=
  let devno := mkdev m.aesdMajor aesdMinor
  if env.cdevAdd = 0 then (0, { m with cdevs := devno :: m.cdevs })
  else (env.cdevAdd, m)

/-- `aesd_init_module`. `alloc_chrdev_region` gives a number that is free. -/
def ModuleState.load (m : ModuleState) (env : LoadEnv) : Option (Int × ModuleState) :=
  match env.allocChrdevRegion with
  | .error err => some (err, { m with aesdMajor := major 0 })
  | .ok ma =>
      let dev := mkdev ma aesdMinor
      if dev ∈ m.regions then none
      else
        let (result, m) := aesdSetupCdev
          { m with regions := dev :: m.regions, aesdMajor := major dev } env
        some <|
          if result = 0 then
            (0, { m with device := some (.init env.limit env.limit_le fun _ => 0) })
          else (result, { m with regions := m.regions.erase dev })

/-- `aesd_cleanup_module`. -/
def ModuleState.unload (m : ModuleState) (d : Device) : Option ModuleState := do
  let devno := mkdev m.aesdMajor aesdMinor
  let heap ← aesdCleanupModule d.driver
  return { m with
    cdevs := m.cdevs.erase devno
    regions := m.regions.erase devno
    device := none
    left := heap :: m.left }

/-- The module is loaded, called, or unloaded. -/
inductive ModuleAct where
  | load (env : LoadEnv)
  | call (op : Op)
  | unload

/-- What comes of it: the result of the load, the reply to the call. -/
inductive ModuleOut where
  | loaded (result : Int)
  | reply (r : Reply)
  | unloaded

/-- One step. A module that is loaded is not loaded again, and only one that is
can be called or unloaded. -/
def ModuleState.step (m : ModuleState) : ModuleAct → Option (ModuleOut × ModuleState)
  | .load env =>
      match m.device with
      | none => do
          let (result, m) ← m.load env
          return (.loaded result, m)
      | some _ => none
  | .call op => do
      let d ← m.device
      let (r, d) ← d.step op
      return (.reply r, { m with device := some d })
  | .unload => do
      let d ← m.device
      let m ← m.unload d
      return (.unloaded, m)

/-! ## Device numbers -/

theorem major_mkdev {ma mi : Nat} (h : mi < 2 ^ 20) : major (mkdev ma mi) = ma := by
  unfold major mkdev
  rw [← Nat.shiftLeft_add_eq_or_of_lt h, Nat.shiftRight_eq_div_pow, Nat.shiftLeft_eq]
  omega

/-- The number made from `aesd_major` is the one that was allocated. -/
theorem mkdev_major (ma : Nat) :
    mkdev (major (mkdev ma aesdMinor)) aesdMinor = mkdev ma aesdMinor := by
  rw [major_mkdev (by decide)]

/-! ## The life of the module -/

/-- The calls since the last load, with one step more. -/
def ModuleAct.calls (ops : List Op) : ModuleAct → List Op
  | .call op => ops ++ [op]
  | .load _ | .unload => []

/-- The calls since the last load. -/
def callsSince (acts : List ModuleAct) : List Op := acts.foldl ModuleAct.calls []

/-- Whether the module is unloaded. -/
def ModuleAct.isUnload : ModuleAct → Bool
  | .unload => true
  | _ => false

/-- One block at most. -/
def OneBlock (heap : Heap) : Prop := ∃ p : Ptr, ∀ id, (heap.live id).isSome ↔ p = .block id

/-- What is registered is what was before, and the number of the module while it
is loaded. -/
structure Registered (regions cdevs : List Nat) (acts : List ModuleAct) (m : ModuleState) :
    Prop where
  unloaded : m.device = none → m.regions = regions ∧ m.cdevs = cdevs
  loaded : ∀ d, m.device = some d →
    m.regions = mkdev m.aesdMajor aesdMinor :: regions ∧
      m.cdevs = mkdev m.aesdMajor aesdMinor :: cdevs ∧
      mkdev m.aesdMajor aesdMinor ∉ regions ∧
      ∃ limit hl rs, run Device.step (.init limit hl fun _ => 0) (callsSince acts) = some (rs, d)
  left : m.left.length = acts.countP ModuleAct.isUnload
  blocks : ∀ heap ∈ m.left, OneBlock heap

section
variable {regions cdevs : List Nat} {acts : List ModuleAct} {m m' : ModuleState} {d : Device}

theorem callsSince_snoc (acts : List ModuleAct) (act : ModuleAct) :
    callsSince (acts ++ [act]) = act.calls (callsSince acts) := by
  rw [callsSince, List.foldl_append]
  rfl

/-- **An unload** is defined after every run of the device, and leaves a block at
most. -/
theorem exists_unload {limit : Nat} {hl : limit ≤ 2 ^ 56} {ops : List Op} {rs : List Reply}
    (hrun : run Device.step (.init limit hl fun _ => 0) ops = some (rs, d)) :
    ∃ heap, aesdCleanupModule d.driver = some heap ∧ OneBlock heap := by
  obtain ⟨a, -, ht, -⟩ := run_tracks hrun
  obtain ⟨heap, hclean, hlive⟩ := ht.state.cleanup
  exact ⟨heap, hclean, heldPtr d.driver a.state, hlive⟩

/-- **A load** registers the module's number, or leaves the tables. -/
theorem ModuleState.load_cases {env : LoadEnv} {result : Int}
    (h : m.load env = some (result, m')) (hd : m.device = none) :
    m'.left = m.left ∧
      (m'.device = none ∧ m'.regions = m.regions ∧ m'.cdevs = m.cdevs ∨
        m'.device = some (.init env.limit env.limit_le fun _ => 0) ∧
          m'.regions = mkdev m'.aesdMajor aesdMinor :: m.regions ∧
          m'.cdevs = mkdev m'.aesdMajor aesdMinor :: m.cdevs ∧
          mkdev m'.aesdMajor aesdMinor ∉ m.regions) := by
  unfold ModuleState.load at h
  cases halloc : env.allocChrdevRegion with
  | error err =>
      rw [halloc] at h
      cases h
      exact ⟨rfl, .inl ⟨hd, rfl, rfl⟩⟩
  | ok ma =>
      rw [halloc] at h
      dsimp only at h
      split at h
      · cases h
      rename_i hfree
      by_cases hadd : env.cdevAdd = 0
      · simp only [aesdSetupCdev, hadd, if_true, mkdev_major] at h
        cases h
        refine ⟨rfl, .inr ⟨rfl, ?_, ?_, ?_⟩⟩
        · rw [mkdev_major]
        · rw [mkdev_major]
        · rw [mkdev_major]
          exact hfree
      · simp only [aesdSetupCdev, hadd, if_false] at h
        cases h
        exact ⟨rfl, .inl ⟨hd, List.erase_cons_head .., rfl⟩⟩

theorem Registered.step (h : Registered regions cdevs acts m) {act : ModuleAct}
    {out : ModuleOut} (hs : m.step act = some (out, m')) :
    Registered regions cdevs (acts ++ [act]) m' := by
  cases act with
  | load env =>
      simp only [ModuleState.step] at hs
      split at hs
      swap
      · cases hs
      rename_i hd
      simp only [Option.bind_eq_bind, Option.bind_eq_some_iff] at hs
      obtain ⟨⟨result, m₁⟩, hload, hs⟩ := hs
      cases hs
      obtain ⟨hregions, hcdevs⟩ := h.unloaded hd
      obtain ⟨hleft, hcases⟩ := ModuleState.load_cases hload hd
      refine ⟨?_, ?_, ?_, by rw [hleft]; exact h.blocks⟩
      · intro hnone
        rcases hcases with ⟨-, hr, hc⟩ | ⟨hsome, -⟩
        · rw [hr, hc]
          exact ⟨hregions, hcdevs⟩
        · rw [hsome] at hnone
          cases hnone
      · intro d hd'
        rcases hcases with ⟨hnone, -⟩ | ⟨hsome, hr, hc, hfree⟩
        · rw [hnone] at hd'
          cases hd'
        · rw [hsome] at hd'
          cases hd'
          rw [hregions] at hr hfree
          rw [hcdevs] at hc
          refine ⟨hr, hc, hfree, env.limit, env.limit_le, [], ?_⟩
          rw [callsSince_snoc]
          rfl
      · rw [hleft, h.left, List.countP_append]
        rfl
  | call op =>
      simp only [ModuleState.step, Option.bind_eq_bind, Option.bind_eq_some_iff] at hs
      obtain ⟨d, hd, ⟨r, d'⟩, hcall, hs⟩ := hs
      cases hs
      obtain ⟨hr, hc, hfree, limit, hl, rs, hrun⟩ := h.loaded d hd
      refine ⟨fun hnone => (by cases hnone), ?_, ?_, h.blocks⟩
      · rintro _ ⟨⟩
        refine ⟨hr, hc, hfree, limit, hl, rs ++ [r], ?_⟩
        rw [callsSince_snoc]
        exact run_snoc.mpr ⟨rs, d, r, hrun, hcall, rfl⟩
      · rw [List.countP_append]
        exact h.left
  | unload =>
      simp only [ModuleState.step, ModuleState.unload, Option.bind_eq_bind,
        Option.bind_eq_some_iff] at hs
      obtain ⟨d, hd, m₁, ⟨heap, hclean, hm⟩, hs⟩ := hs
      cases hm
      cases hs
      obtain ⟨hr, hc, hfree, limit, hl, rs, hrun⟩ := h.loaded d hd
      obtain ⟨heap', hclean', hone⟩ := exists_unload hrun
      rw [hclean] at hclean'
      cases hclean'
      refine ⟨fun _ => ⟨?_, ?_⟩, fun d hd' => (by cases hd'), ?_, ?_⟩
      · show m.regions.erase _ = regions
        rw [hr, List.erase_cons_head]
      · show m.cdevs.erase _ = cdevs
        rw [hc, List.erase_cons_head]
      · rw [List.countP_append, ← h.left]
        rfl
      · intro heap' hmem
        rcases List.mem_cons.mp hmem with rfl | hmem
        · exact hone
        · exact h.blocks heap' hmem

end

/-- **The life of the module.** In every run of loads, calls and unloads, with any
answers of the kernel: while the module is not loaded the kernel's tables are what
they were at first, whatever loads failed; while it is, they have its number in
addition, which was free, and the device is as the calls since the last load made
it, so nothing of an earlier load is seen, and an unload is defined. Every unload
leaves a block at most. -/
theorem module_lifecycle (regions cdevs : List Nat) (aesdMajor : Nat) {acts : List ModuleAct}
    {outs : List ModuleOut} {m : ModuleState}
    (h : run ModuleState.step ⟨regions, cdevs, aesdMajor, none, []⟩ acts = some (outs, m)) :
    (m.device = none → m.regions = regions ∧ m.cdevs = cdevs) ∧
      (∀ d, m.device = some d →
        m.regions = mkdev m.aesdMajor aesdMinor :: regions ∧
        m.cdevs = mkdev m.aesdMajor aesdMinor :: cdevs ∧
        mkdev m.aesdMajor aesdMinor ∉ regions ∧
        (∃ limit hl rs,
          run Device.step (.init limit hl fun _ => 0) (callsSince acts) = some (rs, d)) ∧
        (m.step .unload).isSome = true) ∧
      m.left.length = acts.countP ModuleAct.isUnload ∧ ∀ heap ∈ m.left, OneBlock heap := by
  have hreg : Registered regions cdevs acts m := by
    refine run_history (P := fun acts _ m => Registered regions cdevs acts m) ?_ ?_ h
    · exact ⟨fun _ => ⟨rfl, rfl⟩, fun d hd => (by cases hd), rfl, fun heap hmem => by cases hmem⟩
    · exact fun acts outs m act out m' _ ih hs => ih.step hs
  refine ⟨hreg.unloaded, fun d hd => ?_, hreg.left, hreg.blocks⟩
  obtain ⟨hr, hc, hfree, limit, hl, rs, hrun⟩ := hreg.loaded d hd
  obtain ⟨heap, hclean, -⟩ := exists_unload hrun
  refine ⟨hr, hc, hfree, ⟨limit, hl, rs, hrun⟩, ?_⟩
  simp [ModuleState.step, ModuleState.unload, hd, hclean]

/-- A load for which `cdev_add` fails, and one that succeeds, with a byte pending
at the unload. -/
theorem module_lifecycle_pending :
    let env : Int → LoadEnv := fun err => ⟨.ok 240, err, 4096, by decide⟩
    let acts := [.load (env (-12)), .load (env 0), .call (.write (.quiet 0 [97] (by decide))),
      .unload]
    ∃ outs m, run ModuleState.step ⟨[], [], 0, none, []⟩ acts = some (outs, m) ∧
      m.regions = [] ∧ m.cdevs = [] ∧ m.left.length = 1 ∧ ∀ heap ∈ m.left, OneBlock heap := by
  intro env acts
  have h : (run ModuleState.step ⟨[], [], 0, none, []⟩ acts).map (fun p => p.2.device.isNone)
      = some true := by decide
  obtain ⟨⟨outs, m⟩, hrun, hnone⟩ := Option.map_eq_some_iff.mp h
  obtain ⟨hunloaded, -, hleft, hblocks⟩ := module_lifecycle [] [] 0 hrun
  obtain ⟨hr, hc⟩ := hunloaded (Option.isNone_iff_eq_none.mp hnone)
  exact ⟨outs, m, hrun, hr, hc, hleft, hblocks⟩

end Aesd.Driver
