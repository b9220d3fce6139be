import JobAllocation.InitialAssignment
import JobAllocation.Proofs.CompleteAssignment

/-!
# Every start is complete

A search starts at drawn units, at the balanced assignment or at a given one. The first two bind
each job of a pool once, to one of its units, whatever is drawn and however long the jobs are.
-/
namespace JobAllocation

theorem Generator.next_lt (g : Generator) : g.next.1 < 2 ^ 32 :=
  UInt32.toNat_lt (ChaCha.word g.key g.place)

/-- A draw stays below its bound. The high half of the product does, and where the second word adds
one to it the low half is so large that the high half is not the last below the bound. -/
theorem Generator.below_lt {bound : Nat} (hb : 0 < bound) (g : Generator) :
    (g.below bound).1 < bound := by
  have hx := g.next_lt
  have hproduct : g.next.1 * bound + bound ≤ 2 ^ 32 * bound := by
    rw [← Nat.succ_mul]
    exact Nat.mul_le_mul_right bound hx
  have hsplit := Nat.div_add_mod (g.next.1 * bound) (2 ^ 32)
  have hhigh : g.next.1 * bound / 2 ^ 32 < bound :=
    Nat.div_lt_of_lt_mul (by omega)
  simp only [below]
  split
  · next hlow =>
    split
    · by_contra hlast
      have hquotient : bound ≤ g.next.1 * bound / 2 ^ 32 + 1 := Nat.le_of_not_lt hlast
      omega
    · exact hhigh
  · exact hhigh

namespace InitialAssignment

variable {T : Type} {jobs : List (Job T)} {units : List (ExecutionUnit T)}

theorem map_fst_drawPairs (hne : units ≠ []) (jobs : List (Job T)) (g : Generator) :
    (drawPairs units jobs g).1.map (·.1) = jobs.map (·.id) := by
  induction jobs generalizing g with
  | nil => rfl
  | cons job rest ih =>
    have hlt := g.below_lt (List.length_pos_of_ne_nil hne)
    simp only [drawPairs, List.isEmpty_iff, hne, if_false, List.getElem?_eq_getElem hlt,
      List.map_cons, ih]

theorem drawPairs_known (jobs : List (Job T)) (g : Generator) :
    ∀ pair ∈ (drawPairs units jobs g).1, pair.2 ∈ units.map (·.id) := by
  induction jobs generalizing g with
  | nil => simp [drawPairs]
  | cons job rest ih =>
    rw [drawPairs]
    split
    · simp
    · dsimp only
      split
      · next unit hunit =>
        refine List.forall_mem_cons.mpr ⟨?_, ih _⟩
        exact List.mem_map_of_mem (List.mem_of_getElem? hunit)
      · exact ih _

theorem entries_draw (hj : (jobs.map (·.id)).Nodup) (hne : units ≠ []) (g : Generator) :
    (draw jobs units g).1.entries = (drawPairs units jobs g).1 := by
  rw [← map_fst_drawPairs hne jobs g] at hj
  exact Assignment.entries_ofPairs hj

theorem jobs_draw (hj : (jobs.map (·.id)).Nodup) (hne : units ≠ []) (g : Generator) :
    (draw jobs units g).1.jobs = jobs.map (·.id) := by
  rw [Assignment.jobs, entries_draw hj hne, map_fst_drawPairs hne]

theorem complete_draw (hj : (jobs.map (·.id)).Nodup) (hne : units ≠ []) (g : Generator) :
    (draw jobs units g).1.Complete jobs units where
  jobs_perm := .of_eq (jobs_draw hj hne g)
  units_known := by
    rw [entries_draw hj hne]
    exact drawPairs_known jobs g

variable [Quantity T]

omit [Quantity T] in
/-- Giving work to a unit leaves its place, its number and its speed alone. -/
theorem map_unit_set {loaded : List (Loaded T)} {i : Nat} {l : Loaded T} (h : loaded[i]? = some l)
    (load : T) : (loaded.set i { l with load }).map (·.unit) = loaded.map (·.unit) := by
  obtain ⟨hi, rfl⟩ := List.getElem?_eq_some_iff.mp h
  have hlt : i < (loaded.map (·.unit)).length := by rwa [List.length_map]
  have hunit : loaded[i].unit = (loaded.map (·.unit))[i] := by rw [List.getElem_map]
  rw [List.map_set, hunit, List.set_getElem_self]

omit [Quantity T] in
theorem map_unit_loaded (units : List (ExecutionUnit T)) (load : ExecutionUnit T → T) :
    (units.map fun unit => (⟨unit, load unit⟩ : Loaded T)).map (·.unit) = units := by
  rw [List.map_map]
  exact List.map_id units

/-- A unit with a job more. -/
def Loaded.give (l : Loaded T) (job : Job T) : Loaded T :=
  { l with load := l.load + Quantity.ofNat job.length / l.unit.speed }

/-- Balancing succeeds, and what is kept whenever a job goes to the lightest unit holds at its
end. -/
theorem exists_balance_of_kept {P : List (Job T) → List (Loaded T) → Assignment → Prop}
    (hne : units ≠ []) (hs : ∀ unit ∈ units, 0 < unit.speed)
    (kept : ∀ {job rest loaded a lightest i}, loaded.map (·.unit) = units →
      Selection.best? (fun a b => a.1.lighter b.1) loaded.zipIdx = some (lightest, i) →
        P (job :: rest) loaded a →
          P rest (loaded.set i (lightest.give job)) (a.assign job.id lightest.unit.id))
    {loaded : List (Loaded T)} (hl : loaded.map (·.unit) = units) {a : Assignment}
    (h : P jobs loaded a) : ∃ b last, balance loaded a jobs = .ok b ∧ P [] last b := by
  -- By the jobs. As there are units, one of them is the lightest and takes the next job.
  induction jobs generalizing loaded a with
  | nil => exact ⟨a, loaded, rfl, h⟩
  | cons job rest ih =>
    cases hbest : Selection.best? (fun a b => a.1.lighter b.1) loaded.zipIdx with
    | none =>
      obtain rfl := List.zipIdx_eq_nil_iff.mp (Selection.best?_eq_none_iff.mp hbest)
      exact absurd hl.symm hne
    | some pick =>
      obtain ⟨lightest, i⟩ := pick
      have hat := List.mem_zipIdx_iff_getElem?.mp (Selection.mem_of_best? hbest)
      have hmem : lightest.unit ∈ units := hl ▸ List.mem_map_of_mem (List.mem_of_getElem? hat)
      obtain ⟨b, last, hb, hlast⟩ := ih ((map_unit_set hat _).trans hl) (kept hl hbest h)
      refine ⟨b, last, ?_, hlast⟩
      simp only [balance, hbest, executionTime_eq (hs _ hmem), bind, Except.bind]
      exact hb

omit [Quantity T] in
/-- A job that is not bound yet is bound behind the others. -/
theorem entries_assign_next {a : Assignment} {job : Job T} {rest : List (Job T)}
    (hn : (a.jobs ++ (job :: rest).map (·.id)).Nodup) (unit : UnitId) :
    (a.assign job.id unit).entries = a.entries ++ [(job.id, unit)] :=
  Assignment.rebind_of_notMem fun hm => (List.nodup_append.mp hn).2.2 _ hm _ List.mem_cons_self rfl

omit [Quantity T] in
theorem jobs_assign_next {a : Assignment} {job : Job T} {rest : List (Job T)}
    (hn : (a.jobs ++ (job :: rest).map (·.id)).Nodup) (unit : UnitId) :
    (a.assign job.id unit).jobs ++ rest.map (·.id) = a.jobs ++ (job :: rest).map (·.id) := by
  rw [Assignment.jobs, entries_assign_next hn, List.map_append, List.append_assoc]
  rfl

/-- What holds while the jobs that are left are bound behind those of `first`. -/
structure Binding (first : Assignment) (jobs rest : List (Job T)) (units : List (ExecutionUnit T))
    (a : Assignment) : Prop where
  jobs_eq : a.jobs ++ rest.map (·.id) = first.jobs ++ jobs.map (·.id)
  known : ∀ entry ∈ a.entries, entry ∈ first.entries ∨ entry.2 ∈ units.map (·.id)

theorem Binding.give {first a : Assignment} {job : Job T} {rest : List (Job T)}
    {loaded : List (Loaded T)} {lightest : Loaded T} {i : Nat}
    (h : Binding first jobs (job :: rest) units a)
    (hn : (first.jobs ++ jobs.map (·.id)).Nodup) (hl : loaded.map (·.unit) = units)
    (hbest : Selection.best? (fun a b => a.1.lighter b.1) loaded.zipIdx = some (lightest, i)) :
    Binding first jobs rest units (a.assign job.id lightest.unit.id) where
  jobs_eq := (jobs_assign_next (h.jobs_eq ▸ hn) _).trans h.jobs_eq
  known entry he := by
    have hat := List.mem_zipIdx_iff_getElem?.mp (Selection.mem_of_best? hbest)
    rw [entries_assign_next (h.jobs_eq ▸ hn), List.mem_append, List.mem_singleton] at he
    rcases he with he | rfl
    · exact h.known entry he
    · exact .inr (List.mem_map_of_mem (hl ▸ List.mem_map_of_mem (List.mem_of_getElem? hat)))

/-- Balancing binds the jobs behind those that are bound already, each to one of the units. -/
theorem exists_balance {loaded : List (Loaded T)} (hl : loaded.map (·.unit) = units)
    (hne : units ≠ []) (hs : ∀ unit ∈ units, 0 < unit.speed) {a : Assignment}
    (hn : (a.jobs ++ jobs.map (·.id)).Nodup) :
    ∃ b, balance loaded a jobs = .ok b ∧ b.jobs = a.jobs ++ jobs.map (·.id) ∧
      ∀ entry ∈ b.entries, entry ∈ a.entries ∨ entry.2 ∈ units.map (·.id) := by
  obtain ⟨b, -, hb, hbinding⟩ := exists_balance_of_kept
    (P := fun rest _ b => Binding a jobs rest units b) hne hs
    (fun hl hbest h => h.give hn hl hbest) hl ⟨rfl, fun _ he => .inl he⟩
  exact ⟨b, hb, (List.append_nil _).symm.trans hbinding.jobs_eq, hbinding.known⟩

theorem exists_complete_balanced (hj : (jobs.map (·.id)).Nodup) (hne : units ≠ [])
    (hs : ∀ unit ∈ units, 0 < unit.speed) :
    ∃ a, balanced jobs units = .ok a ∧ a.jobs = jobs.map (·.id) ∧ a.Complete jobs units := by
  obtain ⟨b, hb, hjobs, hknown⟩ :=
    exists_balance (a := .empty) (map_unit_loaded units fun _ => 0) hne hs hj
  exact ⟨b, hb, hjobs, .of_eq hjobs,
    fun entry he => (hknown entry he).resolve_left List.not_mem_nil⟩

/-- A given start binds each of the jobs once, to one of the units. The others need not be asked. -/
def Covers (initial : InitialAssignment) (jobs : List (Job T)) (units : List (ExecutionUnit T)) :
    Prop :=
  match initial with
  | explicit a => a.Complete jobs units
  | random _ | leastLoaded => True

theorem exists_complete_build {initial : InitialAssignment} (h : initial.Covers jobs units)
    (hj : (jobs.map (·.id)).Nodup) (hne : units ≠ []) (hs : ∀ unit ∈ units, 0 < unit.speed) :
    ∃ a, initial.build jobs units = .ok a ∧ a.Complete jobs units := by
  cases initial with
  | explicit a => exact ⟨a, rfl, h⟩
  | random seed => exact ⟨_, rfl, complete_draw hj hne (.ofSeed seed)⟩
  | leastLoaded =>
    obtain ⟨a, ha, -, hcomplete⟩ := exists_complete_balanced hj hne hs
    exact ⟨a, ha, hcomplete⟩

/-- A start that is not given lists the jobs as the pool does. -/
theorem jobs_of_build {initial : InitialAssignment} {a : Assignment}
    (h : initial.build jobs units = .ok a) (hgiven : ∀ given, initial ≠ .explicit given)
    (hj : (jobs.map (·.id)).Nodup) (hne : units ≠ []) (hs : ∀ unit ∈ units, 0 < unit.speed) :
    a.jobs = jobs.map (·.id) := by
  cases initial with
  | explicit given => exact absurd rfl (hgiven given)
  | random seed =>
    obtain rfl := Except.ok.inj h
    exact jobs_draw hj hne (.ofSeed seed)
  | leastLoaded =>
    obtain ⟨b, hb, hjobs, -⟩ := exists_complete_balanced hj hne hs
    obtain rfl := Except.ok.inj (hb.symm.trans h)
    exact hjobs

end InitialAssignment
end JobAllocation
