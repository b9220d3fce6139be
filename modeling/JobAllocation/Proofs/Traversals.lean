import Mathlib.Data.List.Forall2
import Mathlib.Data.List.Nodup

/-!
# Lists gone through item by item

A computation over a list succeeds exactly if it succeeds on each item, with the results in their
places, so what is said of a result is a relation along two lists. Items are searched for from the
end and sorted by their numbers, and where the numbers are distinct neither depends on the order in
which the items are listed.
-/
namespace JobAllocation

theorem exists_of_bind_eq_ok {E A B : Type} {x : Except E A} {f : A → Except E B} {b : B}
    (h : x >>= f = .ok b) : ∃ a, x = .ok a ∧ f a = .ok b := by
  cases x with
  | error e => cases h
  | ok a => exact ⟨a, rfl, h⟩

theorem exists_of_map_eq_ok {E A B : Type} {f : A → B} {outcome : Except E A} {b : B}
    (h : outcome.map f = .ok b) : ∃ a, outcome = .ok a ∧ f a = b := by
  cases outcome with
  | error e => cases h
  | ok a => exact ⟨a, rfl, Except.ok.inj h⟩

/-- What can be decided of the result of a run. -/
theorem exists_ok_of_decide {E A : Type} {result : Except E A} {P : A → Prop} [DecidablePred P]
    (h : result.toOption.map (fun a => decide (P a)) = some true) : ∃ a, result = .ok a ∧ P a := by
  cases result with
  | error e => contradiction
  | ok a => exact ⟨a, rfl, of_decide_eq_true (Option.some.inj h)⟩

/-- Two computations in turn commute with changes with which each of them commutes. -/
theorem bind_comm {E A A' B B' : Type} {f : A → A'} {g : B → B'} {first : Except E A}
    {first' : Except E A'} (h : first' = first.map f) {next : A → Except E B}
    {next' : A' → Except E B'} (hnext : ∀ a, next' (f a) = (next a).map g) :
    (first' >>= next') = (first >>= next).map g := by
  subst h
  cases first with
  | error e => rfl
  | ok a => exact hnext a

section Forall₂

variable {A B C : Type} {R : A → B → Prop} {xs : List A} {ys : List B}

theorem exists_forall₂ (h : ∀ a ∈ xs, ∃ b, R a b) : ∃ ys, List.Forall₂ R xs ys := by
  induction xs with
  | nil => exact ⟨[], .nil⟩
  | cons a xs ih =>
    obtain ⟨b, hb⟩ := h a List.mem_cons_self
    obtain ⟨ys, hys⟩ := ih fun x hx => h x (List.mem_cons_of_mem _ hx)
    exact ⟨b :: ys, .cons hb hys⟩

theorem exists_of_mem_forall₂ (h : List.Forall₂ R xs ys) {y : B} (hy : y ∈ ys) :
    ∃ x ∈ xs, R x y := by
  induction h with
  | nil => simp at hy
  | @cons a b xs ys hp _ ih =>
    rcases List.mem_cons.mp hy with rfl | hy
    · exact ⟨a, List.mem_cons_self, hp⟩
    · obtain ⟨x, hx, hpx⟩ := ih hy
      exact ⟨x, List.mem_cons_of_mem _ hx, hpx⟩

theorem map_eq_map_of_forall₂ {f : A → C} {g : B → C}
    (h : List.Forall₂ (fun a b => f a = g b) xs ys) : xs.map f = ys.map g := by
  rw [← List.forall₂_eq_eq_eq, List.forall₂_map_left_iff, List.forall₂_map_right_iff]
  exact h

theorem flatMap_eq_of_forall₂ {f : A → List C} {g : A × B → List C} (h : List.Forall₂ R xs ys)
    (hfg : ∀ a b, R a b → f a = g (a, b)) : xs.flatMap f = (xs.zip ys).flatMap g := by
  induction h with
  | nil => rfl
  | cons hab _ ih => rw [List.zip_cons_cons, List.flatMap_cons, List.flatMap_cons, hfg _ _ hab, ih]

/-- Searches that stop at the same places find things that are related. -/
theorem findRev?_rel {p : A → Bool} {q : B → Bool}
    (h : List.Forall₂ (fun a b => q b = p a ∧ (p a = true → R a b)) xs ys) :
    Option.Rel R (xs.findRev? p) (ys.findRev? q) := by
  induction h with
  | nil => exact .none
  | @cons a b xs ys hab _ ih =>
    rw [List.findRev?, List.findRev?, hab.1]
    generalize xs.findRev? p = found at ih ⊢
    generalize ys.findRev? q = other at ih ⊢
    cases ih with
    | some hr => exact .some hr
    | none =>
      by_cases hp : p a = true
      · simp only [if_pos hp]
        exact .some (hab.2 hp)
      · simp only [if_neg hp]
        exact .none

end Forall₂

section Except

variable {E A B : Type} {f : A → Except E B} {xs : List A} {ys : List B}

/-- A computation along a list succeeds with the results of its steps, and if they all succeed. -/
theorem mapM_eq_ok_iff :
    xs.mapM f = .ok ys ↔ List.Forall₂ (fun a b => f a = .ok b) xs ys := by
  constructor
  · intro h
    induction xs generalizing ys with
    | nil =>
      cases h
      exact .nil
    | cons a xs ih =>
      rw [List.mapM_cons] at h
      obtain ⟨b, hb, h⟩ := exists_of_bind_eq_ok h
      obtain ⟨rest, hrest, h⟩ := exists_of_bind_eq_ok h
      cases h
      exact .cons hb (ih hrest)
  · intro h
    induction h with
    | nil => rfl
    | cons hb _ ih =>
      rw [List.mapM_cons, hb, ih]
      rfl

theorem mapM_eq_ok {g : A → B} (h : ∀ a ∈ xs, f a = .ok (g a)) : xs.mapM f = .ok (xs.map g) :=
  mapM_eq_ok_iff.mpr (List.forall₂_map_right_iff.mpr (List.forall₂_same.mpr h))

theorem exists_mapM_ok {P : A → B → Prop} (h : ∀ a ∈ xs, ∃ b, f a = .ok b ∧ P a b) :
    ∃ ys, xs.mapM f = .ok ys ∧ List.Forall₂ P xs ys := by
  obtain ⟨ys, hys⟩ := exists_forall₂ h
  exact ⟨ys, mapM_eq_ok_iff.mpr (hys.imp fun _ _ h => h.1), hys.imp fun _ _ h => h.2⟩

theorem exists_of_mapM_eq_ok (h : xs.mapM f = .ok ys) {a : A} (ha : a ∈ xs) :
    ∃ b, f a = .ok b := by
  obtain ⟨b, -, hb⟩ := exists_of_mem_forall₂ (mapM_eq_ok_iff.mp h).flip ha
  exact ⟨b, hb⟩

/-- It fails with the failure of one of its steps. -/
theorem exists_of_mapM_eq_error {e : E} (h : xs.mapM f = .error e) :
    ∃ a ∈ xs, f a = .error e := by
  induction xs with
  | nil => cases h
  | cons a xs ih =>
    rw [List.mapM_cons] at h
    cases ha : f a with
    | error first =>
      rw [ha] at h
      cases h
      exact ⟨a, List.mem_cons_self, ha⟩
    | ok b =>
      cases hrest : xs.mapM f with
      | error later =>
        rw [ha, hrest] at h
        cases h
        obtain ⟨other, ho, hother⟩ := ih hrest
        exact ⟨other, List.mem_cons_of_mem _ ho, hother⟩
      | ok rest =>
        rw [ha, hrest] at h
        cases h

/-- A computation that commutes with a change of its argument does so all along a list. -/
theorem mapM_map_comm {A' B' : Type} {again : A' → Except E B'} {change : A → A'} {g : B → B'}
    (h : ∀ a, again (change a) = (f a).map g) (xs : List A) :
    (xs.map change).mapM again = (xs.mapM f).map (List.map g) := by
  induction xs with
  | nil => rfl
  | cons a xs ih =>
    rw [List.map_cons, List.mapM_cons, List.mapM_cons, h, ih]
    cases f a with
    | error e => rfl
    | ok b => cases xs.mapM f <;> rfl

theorem forM_eq_ok {check : A → Except E Unit} (h : ∀ a ∈ xs, check a = .ok ()) :
    xs.forM check = .ok () := by
  induction xs with
  | nil => rfl
  | cons a xs ih =>
    have hrest : xs.forM check = .ok () := ih fun x hx => h x (List.mem_cons_of_mem _ hx)
    simp only [List.forM, h a List.mem_cons_self, bind, Except.bind]
    exact hrest

end Except

section Numbers

variable {α : Type} {key : α → Nat} {xs ys : List α}

theorem findRev?_eq_of_mem (hd : (xs.map key).Nodup) {a : α} (ha : a ∈ xs) :
    xs.findRev? (key · == key a) = some a := by
  rw [List.findRev?_eq_find?_reverse]
  cases hf : xs.reverse.find? (key · == key a) with
  | none =>
    rw [List.find?_eq_none] at hf
    exact absurd (beq_self_eq_true (key a)) (hf a (List.mem_reverse.mpr ha))
  | some b =>
    have hkey : key b = key a := by simpa using List.find?_some hf
    have hb : b ∈ xs := List.mem_reverse.mp (List.mem_of_find?_eq_some hf)
    rw [List.inj_on_of_nodup_map hd hb ha hkey]

/-- What is found has the number that was looked for. -/
theorem mem_of_findRev? {number : Nat} {a : α} (h : xs.findRev? (key · == number) = some a) :
    a ∈ xs ∧ key a = number := by
  rw [List.findRev?_eq_find?_reverse] at h
  exact ⟨List.mem_reverse.mp (List.mem_of_find?_eq_some h), by simpa using List.find?_some h⟩

theorem findRev?_eq_some_iff (hd : (xs.map key).Nodup) {number : Nat} {a : α} :
    xs.findRev? (key · == number) = some a ↔ a ∈ xs ∧ key a = number := by
  refine ⟨mem_of_findRev?, ?_⟩
  rintro ⟨ha, rfl⟩
  exact findRev?_eq_of_mem hd ha

/-- Where the numbers are distinct, the order does not matter. -/
theorem findRev?_perm (hd : (xs.map key).Nodup) (h : xs.Perm ys) (number : Nat) :
    xs.findRev? (key · == number) = ys.findRev? (key · == number) := by
  refine Option.ext fun a => ?_
  rw [findRev?_eq_some_iff hd, findRev?_eq_some_iff ((h.map key).nodup_iff.mp hd), h.mem_iff]

theorem findRev?_eq_none_iff (hd : (xs.map key).Nodup) {number : Nat} :
    xs.findRev? (key · == number) = none ↔ number ∉ xs.map key := by
  rw [Option.eq_none_iff_forall_ne_some]
  simp only [List.mem_map, not_exists, not_and]
  exact forall_congr' fun a => (not_congr (findRev?_eq_some_iff hd)).trans not_and

/-- Where the numbers are distinct, no number stands in two places. -/
theorem index_eq_of_key (hd : (xs.map key).Nodup) {i k : Nat} {a b : α} (ha : xs[i]? = some a)
    (hb : xs[k]? = some b) (heq : key a = key b) : i = k := by
  have hmap : (xs.map key)[i]? = (xs.map key)[k]? := by
    rw [List.getElem?_map, List.getElem?_map, ha, hb, Option.map_some, Option.map_some, heq]
  have hi : i < (xs.map key).length := by
    rw [List.length_map]
    exact (List.getElem?_eq_some_iff.mp ha).1
  exact (List.getElem?_inj hi hd).mp hmap

/-- Things with distinct numbers, none of them seen before, are not seen with the first of them
either. -/
theorem notMem_seen {seen : List Nat} {a : α} {rest : List α} (hn : ((a :: rest).map key).Nodup)
    (hseen : ∀ b ∈ a :: rest, key b ∉ seen) : ∀ b ∈ rest, key b ∉ key a :: seen := by
  intro b hb hm
  rw [List.map_cons, List.nodup_cons] at hn
  rcases List.mem_cons.mp hm with heq | hm
  · exact hn.1 (List.mem_map.mpr ⟨b, hb, heq⟩)
  · exact hseen b (List.mem_cons_of_mem _ hb) hm

/-- Things among those with distinct numbers are told by their numbers. -/
theorem eq_of_map_eq {zs : List α} (hd : (zs.map key).Nodup) (hx : xs ⊆ zs) (hy : ys ⊆ zs)
    (h : xs.map key = ys.map key) : xs = ys := by
  induction xs generalizing ys with
  | nil => exact (List.map_eq_nil_iff.mp h.symm).symm
  | cons x xs ih =>
    obtain ⟨y, ys, rfl⟩ : ∃ y rest, ys = y :: rest :=
      List.exists_cons_of_ne_nil fun hnil => by simp [hnil] at h
    obtain ⟨hxz, hx⟩ := List.cons_subset.mp hx
    obtain ⟨hyz, hy⟩ := List.cons_subset.mp hy
    obtain ⟨hnumber, h⟩ := List.cons.inj h
    rw [List.inj_on_of_nodup_map hd hxz hyz hnumber, ih hx hy h]

/-- A sort by number puts things in ascending order. -/
theorem pairwise_mergeSort_number (key : α → Nat) (xs : List α) :
    (xs.mergeSort (key · ≤ key ·)).Pairwise (key · ≤ key ·) := by
  have htrans (a b c : α) : decide (key a ≤ key b) = true →
      decide (key b ≤ key c) = true → decide (key a ≤ key c) = true := by
    simp only [decide_eq_true_eq]
    exact Nat.le_trans
  have htotal (a b : α) : (decide (key a ≤ key b) || decide (key b ≤ key a)) = true := by
    simpa using Nat.le_total (key a) (key b)
  exact (List.pairwise_mergeSort htrans htotal xs).imp of_decide_eq_true

/-- Things with distinct numbers are sorted in one way. -/
theorem mergeSort_eq_of_perm (key : α → Nat) {xs ys : List α} (hd : (xs.map key).Nodup)
    (hp : xs.Perm ys) : xs.mergeSort (key · ≤ key ·) = ys.mergeSort (key · ≤ key ·) := by
  have hxs := List.mergeSort_perm xs (key · ≤ key ·)
  have hys := List.mergeSort_perm ys (key · ≤ key ·)
  refine List.Perm.eq_of_pairwise (fun a b ha hb hab hba => ?_) (pairwise_mergeSort_number key xs)
    (pairwise_mergeSort_number key ys) ((hxs.trans hp).trans hys.symm)
  exact List.inj_on_of_nodup_map hd (hxs.subset ha) (hp.symm.subset (hys.subset hb))
    (Nat.le_antisymm hab hba)

/-- A sort by number does not see a change that keeps the numbers. -/
theorem mergeSort_map_comm (key : α → Nat) {g : α → α} (hg : ∀ a, key (g a) = key a)
    (xs : List α) : (xs.map g).mergeSort (key · ≤ key ·) = (xs.mergeSort (key · ≤ key ·)).map g :=
  (List.map_mergeSort fun a _ b _ => by rw [hg, hg]).symm

end Numbers

/-- Where a list with one more entry at its end is split, the list itself can be. -/
theorem concat_eq_split {A : Type} {xs front back : List A} {x a : A}
    (h : xs ++ [x] = front ++ a :: back) :
    (xs = front ∧ x = a ∧ back = []) ∨ ∃ rest, back = rest ++ [x] ∧ xs = front ++ a :: rest := by
  rcases List.eq_nil_or_concat back with rfl | ⟨rest, last, rfl⟩
  · obtain ⟨rfl, heq⟩ := List.append_inj' h rfl
    exact .inl ⟨rfl, (List.cons.inj heq).1, rfl⟩
  · rw [List.concat_eq_append, ← List.cons_append, ← List.append_assoc] at h
    obtain ⟨rfl, heq⟩ := List.append_inj' h rfl
    rw [(List.cons.inj heq).1]
    exact .inr ⟨rest, List.concat_eq_append, rfl⟩

theorem lookup_cons_eq_ite {B : Type} (key : Nat) (entry : Nat × B) (rest : List (Nat × B)) :
    (entry :: rest).lookup key = if key = entry.1 then some entry.2 else rest.lookup key := by
  rw [List.lookup_cons]
  by_cases h : key = entry.1
  · simp [h]
  · simp [h, beq_eq_false_iff_ne.mpr h]

theorem nodup_eraseDups {A : Type} [BEq A] [LawfulBEq A] (xs : List A) : xs.eraseDups.Nodup := by
  match xs with
  | [] => simp
  | x :: xs =>
    rw [List.eraseDups_cons, List.nodup_cons]
    exact ⟨by simp [List.mem_eraseDups], nodup_eraseDups _⟩
  termination_by xs.length
  decreasing_by exact Nat.lt_succ_of_le (List.length_filter_le _ _)

end JobAllocation
