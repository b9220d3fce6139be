import JobAllocation.Binary64.Basic
import JobAllocation.Config.Basic
import JobAllocation.Proofs.InitialAssignments

/-!
# Drawn speeds do not depend on stated ones

The seed of a configuration fixes a stream of speeds. Each unit without a stated speed takes the
next one and a unit with a stated speed takes none, so the speed of a unit depends only on how many
units before it state none. Units with stated speeds can come, go and change, and no other unit gets
another speed. Nothing can go wrong but that a speed is missing with no seed to draw it from, or the
quantum of round robin.
-/
namespace JobAllocation.RunConfig

variable {T : Type}

/-- The speed that is drawn from a generator after `i` others. -/
def drawnSpeed (g : Generator) : Nat → Nat
  | 0 => (drawSpeed g).1
  | i + 1 => drawnSpeed (drawSpeed g).2 i

theorem drawnSpeed_bounds (g : Generator) (i : Nat) :
    100 ≤ drawnSpeed g i ∧ drawnSpeed g i ≤ 1600 := by
  induction i generalizing g with
  | zero =>
    have hlt : (g.below drawnSpeeds).1 < drawnSpeeds := g.below_lt (by decide)
    simp only [drawnSpeed, drawSpeed, minDrawnSpeed]
    unfold drawnSpeeds at hlt ⊢
    omega
  | succ i ih => exact ih _

/-- How many units state no speed. -/
def unstated (configs : List (UnitConfig T)) : Nat := configs.countP (·.speed.isNone)

/-- The units at their stated speeds, or else at those of a stream in turn. -/
def equip (speeds : Nat → T) : List (UnitConfig T) → List (ExecutionUnit T)
  | [] => []
  | config :: rest =>
    match config.speed with
    | some speed => config.withSpeed speed :: equip speeds rest
    | none => config.withSpeed (speeds 0) :: equip (fun i => speeds (i + 1)) rest

theorem equip_cons_of_some {config : UnitConfig T} {speed : T} (h : config.speed = some speed)
    (speeds : Nat → T) (rest : List (UnitConfig T)) :
    equip speeds (config :: rest) = config.withSpeed speed :: equip speeds rest := by
  rw [equip, h]

theorem equip_cons_of_none {config : UnitConfig T} (h : config.speed = none) (speeds : Nat → T)
    (rest : List (UnitConfig T)) :
    equip speeds (config :: rest) =
      config.withSpeed (speeds 0) :: equip (fun i => speeds (i + 1)) rest := by
  rw [equip, h]

/-- What a unit becomes depends only on its own configuration and on how many units before it state
no speed. -/
theorem getElem?_equip (speeds : Nat → T) (configs : List (UnitConfig T)) (k : Nat) :
    (equip speeds configs)[k]? = configs[k]?.map fun config =>
      config.withSpeed (config.speed.getD (speeds (unstated (configs.take k)))) := by
  induction configs generalizing speeds k with
  | nil => rfl
  | cons config rest ih =>
    cases hs : config.speed with
    | some speed =>
      rw [equip_cons_of_some hs]
      cases k with
      | zero => simp [hs]
      | succ k => simp [ih, unstated, hs]
    | none =>
      rw [equip_cons_of_none hs]
      cases k with
      | zero => simp [hs, unstated]
      | succ k => simp [ih, unstated, hs]

variable [Quantity T]

theorem buildUnits_cons_of_some {config : UnitConfig T} {speed : T} (h : config.speed = some speed)
    (g : Option Generator) (rest : List (UnitConfig T)) :
    buildUnits g (config :: rest) = (buildUnits g rest).map (config.withSpeed speed :: ·) := by
  rw [buildUnits.eq_def]
  simp only [h]
  rfl

theorem buildUnits_cons_of_none {config : UnitConfig T} (h : config.speed = none) (g : Generator)
    (rest : List (UnitConfig T)) :
    buildUnits (some g) (config :: rest) = (buildUnits (some (drawSpeed g).2) rest).map
      (config.withSpeed (Quantity.ofNat (drawSpeed g).1) :: ·) := by
  rw [buildUnits.eq_def]
  simp only [h]
  rfl

/-- With a generator the units get their speeds from its stream. -/
theorem buildUnits_some (g : Generator) (configs : List (UnitConfig T)) :
    buildUnits (some g) configs =
      .ok (equip (fun i => Quantity.ofNat (drawnSpeed g i)) configs) := by
  induction configs generalizing g with
  | nil => rfl
  | cons config rest ih =>
    cases hs : config.speed with
    | some speed =>
      rw [equip_cons_of_some hs, buildUnits_cons_of_some hs, ih]
      rfl
    | none =>
      rw [equip_cons_of_none hs, buildUnits_cons_of_none hs, ih]
      rfl

/-- Without one some unit may have no speed. -/
theorem exists_error_buildUnits_none_iff (configs : List (UnitConfig T)) :
    (∃ e, buildUnits none configs = .error e) ↔ ∃ config ∈ configs, config.speed = none := by
  induction configs with
  | nil => simp [buildUnits]
  | cons config rest ih =>
    cases hs : config.speed with
    | some speed =>
      rw [buildUnits_cons_of_some hs]
      simp only [List.mem_cons, exists_eq_or_imp, hs, reduceCtorEq, false_or, ← ih]
      cases buildUnits none rest with
      | ok units => simp [Except.map]
      | error e => simp [Except.map]
    | none => simp [buildUnits, hs]

/-- The second list comes from the first by putting in and taking out, and so also by changing, free
items at any places. -/
inductive Edited {A : Type} (free : A → Prop) : List A → List A → Prop where
  | nil : Edited free [] []
  | kept (a : A) {xs ys : List A} (rest : Edited free xs ys) : Edited free (a :: xs) (a :: ys)
  | inserted {a : A} {xs ys : List A} (ha : free a) (rest : Edited free xs ys) :
      Edited free xs (a :: ys)
  | removed {a : A} {xs ys : List A} (ha : free a) (rest : Edited free xs ys) :
      Edited free (a :: xs) ys

omit [Quantity T] in
/-- Units with stated speeds are edited without any effect on the units that are kept. -/
theorem Edited.equip {configs others : List (UnitConfig T)}
    (h : Edited (·.speed ≠ none) configs others) (speeds : Nat → T) :
    Edited (·.1.speed ≠ none) (configs.zip (equip speeds configs))
      (others.zip (equip speeds others)) := by
  -- Only a unit that is kept can take a speed from the stream, and it takes one in both lists.
  induction h generalizing speeds with
  | nil => exact .nil
  | kept config _ ih =>
    cases hs : config.speed with
    | some speed =>
      rw [equip_cons_of_some hs, equip_cons_of_some hs]
      exact .kept _ (ih speeds)
    | none =>
      rw [equip_cons_of_none hs, equip_cons_of_none hs]
      exact .kept _ (ih _)
  | inserted ha _ ih =>
    obtain ⟨speed, hs⟩ := Option.ne_none_iff_exists'.mp ha
    rw [equip_cons_of_some hs]
    exact .inserted ha (ih speeds)
  | removed ha _ ih =>
    obtain ⟨speed, hs⟩ := Option.ne_none_iff_exists'.mp ha
    rw [equip_cons_of_some hs]
    exact .removed ha (ih speeds)

/-- Has the units and jobs of the configuration in their order, each unit at its stated speed or
else at the next one of the stream. -/
structure Follows (config : RunConfig T) (g : Generator) (plan : RunPlan T) : Prop where
  units : plan.pool.units.map (fun unit => (unit.id, unit.name, unit.ready)) =
    config.units.map fun unit => (unit.id, unit.name.getD "", unit.ready)
  speeds : ∀ (k : Nat) (unit : UnitConfig T), config.units[k]? = some unit →
    plan.pool.units[k]?.map ExecutionUnit.speed =
      some (unit.speed.getD (Quantity.ofNat (drawnSpeed g (unstated (config.units.take k)))))
  jobs : plan.pool.jobs.map
      (fun job => (job.id, job.name, job.length, job.arrival, job.deadline, job.remaining)) =
    config.jobs.map fun job =>
      (job.id, job.name.getD "", job.length, job.arrival, job.deadline, job.length)

omit [Quantity T] in
theorem map_equip {B : Type} (f : ExecutionUnit T → B) (g : UnitConfig T → B)
    (hfg : ∀ config speed, f (config.withSpeed speed) = g config) (speeds : Nat → T)
    (configs : List (UnitConfig T)) : (equip speeds configs).map f = configs.map g := by
  refine List.ext_getElem? fun k => ?_
  rw [List.getElem?_map, getElem?_equip, List.getElem?_map, Option.map_map]
  exact congrArg (Option.map · configs[k]?) (funext fun config => hfg config _)

variable {config : RunConfig T} {seed : Nat} {plan : RunPlan T}

theorem build_of_seed (h : config.seed = some seed) :
    config.build = config.policy.build.map fun policy =>
      { pool := {
          jobs := config.jobs.map JobConfig.build
          units := equip (fun i => Quantity.ofNat (drawnSpeed (.ofSeed seed) i)) config.units }
        policy } := by
  rw [build, h, Option.map_some, buildUnits_some]
  rfl

/-- What is built holds the configured jobs and the equipped units. -/
theorem pool_of_build (h : config.seed = some seed) (hplan : config.build = .ok plan) :
    plan.pool = {
      jobs := config.jobs.map JobConfig.build
      units := equip (fun i => Quantity.ofNat (drawnSpeed (.ofSeed seed) i)) config.units } := by
  rw [build_of_seed h] at hplan
  cases hpolicy : config.policy.build with
  | error e => simp [hpolicy, Except.map] at hplan
  | ok policy =>
    rw [hpolicy] at hplan
    obtain rfl := Except.ok.inj hplan
    rfl

theorem follows_of_build (h : config.seed = some seed) (hplan : config.build = .ok plan) :
    config.Follows (.ofSeed seed) plan := by
  have hpool := pool_of_build h hplan
  refine ⟨?_, fun k unit hk => ?_, ?_⟩
  · rw [hpool]
    exact map_equip _ _ (fun _ _ => rfl) _ _
  · rw [hpool, getElem?_equip, hk]
    rfl
  · rw [hpool]
    exact List.map_map

theorem exists_error_build_policy_iff (policy : PolicyConfig) :
    (∃ e, policy.build = .error e) ↔
      policy.kind = .roundRobin ∧ (policy.quantum = none ∨ policy.quantum = some 0) := by
  cases hk : policy.kind with
  | roundRobin =>
    rcases hq : policy.quantum with - | - | quantum <;> simp [PolicyConfig.build, hk, hq]
  | _ => simp [PolicyConfig.build, hk]

/-- The units and the policy fail on their own, and nothing else does. -/
theorem exists_error_build_iff (config : RunConfig T) :
    (∃ e, config.build = .error e) ↔
      (∃ e, buildUnits (config.seed.map .ofSeed) config.units = .error e) ∨
        ∃ e, config.policy.build = .error e := by
  rw [build]
  cases buildUnits (config.seed.map .ofSeed) config.units with
  | error e => exact iff_of_true ⟨e, rfl⟩ (.inl ⟨e, rfl⟩)
  | ok units =>
    cases config.policy.build with
    | error e => exact iff_of_true ⟨e, rfl⟩ (.inr ⟨e, rfl⟩)
    | ok policy => simp [pure, Except.pure, bind, Except.bind]

theorem exists_error_buildUnits_iff (seed : Option Nat) (configs : List (UnitConfig T)) :
    (∃ e, buildUnits (seed.map .ofSeed) configs = .error e) ↔
      seed = none ∧ ∃ config ∈ configs, config.speed = none := by
  cases seed with
  | none => simpa using exists_error_buildUnits_none_iff configs
  | some seed => simp [buildUnits_some]

variable (T) in
/-- A seed fixes the speeds that are drawn, and a configuration with it is built as it says, each
unit without a speed at the next speed drawn. Edits of units with stated speeds leave every other
unit as it was. A configuration cannot be built exactly if it wants a seed or a quantum. -/
theorem drawn_speeds_stable :
    (∀ g i, 100 ≤ drawnSpeed g i ∧ drawnSpeed g i ≤ 1600) ∧
      (∀ (config : RunConfig T) (seed : Nat) (plan : RunPlan T), config.seed = some seed →
        config.build = .ok plan → config.Follows (.ofSeed seed) plan) ∧
      (∀ (config other : RunConfig T) (seed : Nat) (plan later : RunPlan T),
        config.seed = some seed → other.seed = some seed →
        config.build = .ok plan → other.build = .ok later →
        Edited (·.speed ≠ none) config.units other.units →
        Edited (·.1.speed ≠ none) (config.units.zip plan.pool.units)
          (other.units.zip later.pool.units)) ∧
      ∀ config : RunConfig T, (∃ e, config.build = .error e) ↔
        (config.seed = none ∧ ∃ unit ∈ config.units, unit.speed = none) ∨
          config.policy.kind = .roundRobin ∧
            (config.policy.quantum = none ∨ config.policy.quantum = some 0) := by
  refine ⟨drawnSpeed_bounds, fun _ _ _ => follows_of_build,
    fun config other seed plan later h ho hplan hlater hedit => ?_, fun config => ?_⟩
  · rw [pool_of_build h hplan, pool_of_build ho hlater]
    exact hedit.equip _
  · rw [exists_error_build_iff, exists_error_buildUnits_iff, exists_error_build_policy_iff]

/-- Two units without speeds, with one that states its own between them. -/
def seeded : RunConfig Binary64 where
  seed := some 7
  units := [⟨4, none, none, 0⟩, ⟨1, some "fixed", some (Quantity.ofNat 900), 0⟩,
    ⟨2, none, none, Quantity.ofNat 5⟩]
  jobs := [⟨1, none, 1000, 0, none⟩]
  policy := ⟨.roundRobin, some 4, none, none⟩

/-- The same with another unit first and the one in the middle taken out. -/
def reseated : RunConfig Binary64 :=
  { seeded with units := [⟨8, none, some (Quantity.ofNat 300), 0⟩, ⟨4, none, none, 0⟩,
      ⟨2, none, none, Quantity.ofNat 5⟩] }

theorem drawn_speeds_stable_reseated : ∃ plan later, seeded.build = .ok plan ∧
    reseated.build = .ok later ∧ seeded.Follows (.ofSeed 7) plan ∧
    Edited (·.speed ≠ none) seeded.units reseated.units ∧
    Edited (·.1.speed ≠ none) (seeded.units.zip plan.pool.units)
      (reseated.units.zip later.pool.units) ∧
    plan.pool.units[2]?.map ExecutionUnit.speed = some (Quantity.ofNat 145) ∧
    later.pool.units[2]?.map ExecutionUnit.speed = some (Quantity.ofNat 145) ∧
    ∃ e, { seeded with seed := none }.build = .error e := by
  obtain ⟨-, hfollows, hstable, hfails⟩ := drawn_speeds_stable Binary64
  obtain ⟨plan, hplan⟩ : ∃ plan, seeded.build = .ok plan := ⟨_, build_of_seed rfl⟩
  obtain ⟨later, hlater⟩ : ∃ later, reseated.build = .ok later := ⟨_, build_of_seed rfl⟩
  have hedited : Edited (·.speed ≠ none) seeded.units reseated.units :=
    .inserted (by simp) (.kept _ (.removed (by simp) (.kept _ .nil)))
  have hsecond : drawnSpeed (.ofSeed 7) 1 = 145 := by decide +kernel
  have hplanned := hfollows seeded 7 plan rfl hplan
  have hreplanned := hfollows reseated 7 later rfl hlater
  have hfirst := hplanned.speeds 2 ⟨2, none, none, Quantity.ofNat 5⟩ rfl
  have hagain := hreplanned.speeds 2 ⟨2, none, none, Quantity.ofNat 5⟩ rfl
  refine ⟨plan, later, hplan, hlater, hplanned, hedited,
    hstable seeded reseated 7 plan later rfl rfl hplan hlater hedited, ?_, ?_,
    (hfails _).mpr (.inl ⟨rfl, _, List.mem_cons_self, rfl⟩)⟩
  · rwa [show unstated (seeded.units.take 2) = 1 from rfl, hsecond] at hfirst
  · rwa [show unstated (reseated.units.take 2) = 1 from rfl, hsecond] at hagain

end JobAllocation.RunConfig
