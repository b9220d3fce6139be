/-!
# Choosing one of several

Every policy chooses by the same scan: the held candidate is given up only for a later one that is
strictly preferred, so of equally good candidates the first is chosen.
-/
namespace JobAllocation.Selection

variable {α : Type}

/-- The candidate that the scan holds at its end. -/
def best? (prefers : α → α → Bool) : List α → Option α
  | [] => none
  | a :: rest => some (rest.foldl (fun held next => if prefers next held then next else held) a)

theorem foldl_mem (prefers : α → α → Bool) (rest : List α) (a : α) :
    rest.foldl (fun held next => if prefers next held then next else held) a ∈ a :: rest := by
  induction rest generalizing a with
  | nil => simp
  | cons b rest ih =>
    rw [List.foldl_cons]
    have h := ih (if prefers b a then b else a)
    rw [List.mem_cons] at h
    cases hp : prefers b a <;> simp only [hp, Bool.false_eq_true, ↓reduceIte] at h ⊢ <;> grind

/-- What is chosen is one of the candidates. -/
theorem mem_of_best? {prefers : α → α → Bool} {candidates : List α} {a : α}
    (h : best? prefers candidates = some a) : a ∈ candidates := by
  cases candidates with
  | nil => simp [best?] at h
  | cons b rest =>
    simp only [best?, Option.some.injEq] at h
    exact h ▸ foldl_mem prefers rest b

theorem best?_eq_none_iff {prefers : α → α → Bool} {candidates : List α} :
    best? prefers candidates = none ↔ candidates = [] := by
  cases candidates <;> simp [best?]

/-- The scan ends with a candidate at most the one that it began with and every one that it met. It
holds on to what comes first of the listed candidates. -/
theorem foldl_le {le listed : α → α → Prop} {prefers : α → α → Bool} {candidates : List α}
    (refl : ∀ a ∈ candidates, le a a) (trans : ∀ a b c, le a b → le b c → le a c)
    (taken : ∀ a ∈ candidates, ∀ b ∈ candidates, prefers b a = true → le b a)
    (kept : ∀ a ∈ candidates, ∀ b ∈ candidates, listed a b → prefers b a = false → le a b)
    {rest : List α} (hr : rest ⊆ candidates) {held : α} (hh : held ∈ candidates)
    (hl : (held :: rest).Pairwise listed) :
    le (rest.foldl (fun held next => if prefers next held then next else held) held) held ∧
      ∀ a ∈ rest,
        le (rest.foldl (fun held next => if prefers next held then next else held) held) a := by
  induction rest generalizing held with
  | nil => exact ⟨refl held hh, by simp⟩
  | cons b rest ih =>
    obtain ⟨hb, hr⟩ := List.cons_subset.mp hr
    obtain ⟨hheld, hl⟩ := List.pairwise_cons.mp hl
    rw [List.foldl_cons]
    cases hp : prefers b held with
    | true =>
      rw [if_pos rfl]
      obtain ⟨hle, hall⟩ := ih hr hb hl
      refine ⟨trans _ _ _ hle (taken held hh b hb hp), ?_⟩
      intro a ha
      rcases List.mem_cons.mp ha with rfl | ha
      · exact hle
      · exact hall a ha
    | false =>
      rw [if_neg Bool.false_ne_true]
      obtain ⟨hle, hall⟩ := ih hr hh (.cons
        (fun a ha => hheld a (List.mem_cons_of_mem _ ha)) (List.pairwise_cons.mp hl).2)
      refine ⟨hle, ?_⟩
      intro a ha
      rcases List.mem_cons.mp ha with rfl | ha
      · exact trans _ _ _ hle (kept held hh a hb (hheld a List.mem_cons_self) hp)
      · exact hall a ha

/-- What is chosen is at most every candidate, in an order that the preference follows and in which
it lets the listing decide what it does not. -/
theorem best?_le_of_pairwise (le : α → α → Prop) {listed : α → α → Prop}
    {prefers : α → α → Bool} {candidates : List α} (hl : candidates.Pairwise listed)
    (refl : ∀ a ∈ candidates, le a a) (trans : ∀ a b c, le a b → le b c → le a c)
    (taken : ∀ a ∈ candidates, ∀ b ∈ candidates, prefers b a = true → le b a)
    (kept : ∀ a ∈ candidates, ∀ b ∈ candidates, listed a b → prefers b a = false → le a b)
    {best : α} (h : best? prefers candidates = some best) : ∀ a ∈ candidates, le best a := by
  cases candidates with
  | nil => simp
  | cons first rest =>
    obtain rfl := Option.some.inj h
    obtain ⟨hle, hall⟩ := foldl_le refl trans taken kept (List.subset_cons_self first rest)
      List.mem_cons_self hl
    intro a ha
    rcases List.mem_cons.mp ha with rfl | ha
    · exact hle
    · exact hall a ha

/-- What is chosen is at most every candidate, in an order that the preference follows. -/
theorem best?_le (le : α → α → Prop) {prefers : α → α → Bool} {candidates : List α}
    (refl : ∀ a ∈ candidates, le a a) (trans : ∀ a b c, le a b → le b c → le a c)
    (taken : ∀ a ∈ candidates, ∀ b ∈ candidates, prefers b a = true → le b a)
    (kept : ∀ a ∈ candidates, ∀ b ∈ candidates, prefers b a = false → le a b)
    {best : α} (h : best? prefers candidates = some best) : ∀ a ∈ candidates, le best a := by
  have hl : candidates.Pairwise fun _ _ => True := List.pairwise_of_forall fun _ _ => trivial
  exact best?_le_of_pairwise le hl refl trans taken (fun a ha b hb _ => kept a ha b hb) h

/-- What is chosen of the images is the image of what is chosen. -/
theorem best?_map {β : Type} (prefers : β → β → Bool) (f : α → β) (xs : List α) :
    best? prefers (xs.map f) = (best? (fun a b => prefers (f a) (f b)) xs).map f := by
  have key (rest : List α) (held : α) :
      (rest.map f).foldl (fun held next => if prefers next held then next else held) (f held) =
        f (rest.foldl (fun held next =>
          if prefers (f next) (f held) then next else held) held) := by
    induction rest generalizing held with
    | nil => rfl
    | cons next rest ih =>
      rw [List.map_cons, List.foldl_cons, List.foldl_cons, ← ih]
      split <;> rfl
  cases xs with
  | nil => rfl
  | cons first rest => exact congrArg some (key rest first)

/-- Only the candidates have to be compared alike. -/
theorem best?_congr {prefers other : α → α → Bool} {candidates : List α}
    (h : ∀ a ∈ candidates, ∀ b ∈ candidates, prefers a b = other a b) :
    best? prefers candidates = best? other candidates := by
  have hcompare : (fun a b : { a // a ∈ candidates } => prefers a.1 b.1) =
      fun a b => other a.1 b.1 := by
    funext a b
    exact h a.1 a.2 b.1 b.2
  rw [← candidates.attach_map_subtype_val, best?_map, best?_map, hcompare]

end JobAllocation.Selection
