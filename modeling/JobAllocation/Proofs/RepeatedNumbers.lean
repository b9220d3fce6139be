import Mathlib.Data.List.Count
import Mathlib.Data.List.Nodup
import Mathlib.Data.List.Perm.Basic

/-!
# Reports on numbered items

A check goes through a list of numbered items. It reports an item whose number has been used before,
and then what is wrong with the item by itself. How often a number is reported depends only on how
often it is used, and what is wrong with an item by itself does not depend on the others, so the
order of the items only orders the report.
-/
namespace JobAllocation

variable {A E : Type}

/-- The report on items that follow items with the numbers `seen`. -/
def itemReport (number : A → Nat) (repeated : Nat → E) (own : A → List E) (seen : List Nat) :
    List A → List E
  | [] => []
  | a :: rest =>
    (if number a ∈ seen then [repeated (number a)] else []) ++ own a ++
      itemReport number repeated own (number a :: seen) rest

variable {number : A → Nat} {repeated : Nat → E} {own : A → List E} {items others : List A}

/-- The entries of a kind that repeated numbers are not of. -/
theorem filter_itemReport {p : E → Bool} (hr : ∀ id, p (repeated id) = false)
    (ho : ∀ a ∈ items, ∀ e ∈ own a, p e = true) (seen : List Nat) :
    (itemReport number repeated own seen items).filter p = items.flatMap own := by
  induction items generalizing seen with
  | nil => rfl
  | cons a rest ih =>
    obtain ⟨ha, hrest⟩ := List.forall_mem_cons.mp ho
    have hcounted : (if number a ∈ seen then [repeated (number a)] else []).filter p = [] := by
      split <;> simp [hr]
    rw [itemReport, List.filter_append, List.filter_append, hcounted, ih hrest, List.nil_append,
      List.filter_eq_self.mpr ha, List.flatMap_cons]

variable [DecidableEq E]

/-- Each use of a number after the first is reported. -/
theorem count_repeated_itemReport (hr : Function.Injective repeated) {id : Nat}
    (ho : ∀ a ∈ items, repeated id ∉ own a) (seen : List Nat) :
    (itemReport number repeated own seen items).count (repeated id) =
      (items.map number).count id - if id ∈ seen then 0 else 1 := by
  induction items generalizing seen with
  | nil => simp [itemReport]
  | cons a rest ih =>
    obtain ⟨ha, hrest⟩ := List.forall_mem_cons.mp ho
    rw [itemReport, List.count_append, List.count_append, List.count_eq_zero.mpr ha, ih hrest,
      List.map_cons, List.count_cons]
    by_cases hown : number a = id
    · subst hown
      by_cases hseen : number a ∈ seen
      · simp [hseen]
        omega
      · simp [hseen]
    · have hiff : id ∈ number a :: seen ↔ id ∈ seen := by
        rw [List.mem_cons]
        exact or_iff_right (Ne.symm hown)
      have hnone : (if number a ∈ seen then [repeated (number a)] else []).count
          (repeated id) = 0 := by
        split <;> simp [hr.eq_iff, hown]
      simp only [hnone, hiff, beq_eq_false_iff_ne.mpr hown]
      simp

/-- Any other entry is reported once for each item that it is an entry of. -/
theorem count_itemReport {e : E} (he : ∀ id, repeated id ≠ e) (ho : ∀ a ∈ items, (own a).Nodup)
    (seen : List Nat) :
    (itemReport number repeated own seen items).count e = items.countP (e ∈ own ·) := by
  induction items generalizing seen with
  | nil => rfl
  | cons a rest ih =>
    obtain ⟨ha, hrest⟩ := List.forall_mem_cons.mp ho
    have hnone : (if number a ∈ seen then [repeated (number a)] else []).count e = 0 := by
      split <;> simp [he]
    rw [itemReport, List.count_append, List.count_append, hnone, ha.count, ih hrest,
      List.countP_cons, Nat.zero_add, Nat.add_comm]
    simp only [decide_eq_true_eq]

/-- The order of the items only orders the report. -/
theorem itemReport_perm (hr : Function.Injective repeated) (ho : ∀ a ∈ items, (own a).Nodup)
    (hown : ∀ a ∈ items, ∀ id, repeated id ∉ own a) (hp : items.Perm others) :
    (itemReport number repeated own [] items).Perm (itemReport number repeated own [] others) := by
  have ho' : ∀ a ∈ others, (own a).Nodup := fun a ha => ho a (hp.symm.subset ha)
  have hown' (id : Nat) : ∀ a ∈ others, repeated id ∉ own a :=
    fun a ha => hown a (hp.symm.subset ha) id
  refine List.perm_iff_count.mpr fun e => ?_
  by_cases he : ∃ id, repeated id = e
  · obtain ⟨id, rfl⟩ := he
    rw [count_repeated_itemReport hr fun a ha => hown a ha id,
      count_repeated_itemReport hr (hown' id), (hp.map number).count_eq]
  · have hother : ∀ id, repeated id ≠ e := fun id h => he ⟨id, h⟩
    rw [count_itemReport hother ho, count_itemReport hother ho', hp.countP_eq]

end JobAllocation
