import JobAllocation.Proofs.Times

/-!
# The first of the least

Every choice takes the first of the candidates that no other is strictly preferred to. What that
candidate is does not depend on how it is looked for: there is one at most, a scan that gives up
what it holds only for something better finds it, and candidates that are above a limit can be left
out.
-/
namespace JobAllocation

variable {T : Type} [Quantity T]

/-- The first entry with the least key: entries before it have a larger key, and none after it has a
smaller one. -/
def FirstLeast {A : Type} (key : A → T) (xs : List A) (a : A) : Prop :=
  ∃ before after, xs = before ++ a :: after ∧ (∀ b ∈ before, key a < key b) ∧
    ∀ b ∈ after, ¬ key b < key a

namespace FirstLeast

variable {A B : Type} {key other : A → T} {xs : List A} {a b : A} {limit : T}

theorem mem (h : FirstLeast key xs a) : a ∈ xs := by
  obtain ⟨before, after, rfl, -, -⟩ := h
  exact List.mem_append_right before List.mem_cons_self

theorem unique (ha : FirstLeast key xs a) (hb : FirstLeast key xs b) : a = b := by
  obtain ⟨before, after, rfl, hbefore, hafter⟩ := ha
  obtain ⟨front, back, hsplit, hfront, hback⟩ := hb
  rcases List.append_eq_append_iff.mp hsplit with ⟨between, rfl, hrest⟩ | ⟨between, rfl, hrest⟩
  · cases between with
    | nil => exact (List.cons.inj hrest).1
    | cons c between =>
      obtain ⟨rfl, rfl⟩ := List.cons.inj hrest
      exact absurd (hfront a (by simp)) (hafter b (by simp))
  · cases between with
    | nil => exact (List.cons.inj hrest).1.symm
    | cons c between =>
      obtain ⟨rfl, rfl⟩ := List.cons.inj hrest
      exact absurd (hbefore b (by simp)) (hback a (by simp))

theorem congr (h : FirstLeast key xs a)
    (hsame : ∀ b ∈ xs, Quantity.Same (key b) (other b)) : FirstLeast other xs a := by
  have ha := hsame a h.mem
  obtain ⟨before, after, rfl, hbefore, hafter⟩ := h
  refine ⟨before, after, rfl, fun b hb => ?_, fun b hb hlt => hafter b hb ?_⟩
  · have hs := hsame b (List.mem_append_left _ hb)
    exact Quantity.lt_of_le_of_lt ha.2 (Quantity.lt_of_lt_of_le (hbefore b hb) hs.1)
  · have hs := hsame b (List.mem_append_right _ (List.mem_cons_of_mem _ hb))
    exact Quantity.lt_of_le_of_lt hs.1 (Quantity.lt_of_lt_of_le hlt ha.2)

theorem map {key : B → T} {f : A → B} (h : FirstLeast (fun a => key (f a)) xs a) :
    FirstLeast key (xs.map f) (f a) := by
  obtain ⟨before, after, rfl, hbefore, hafter⟩ := h
  refine ⟨before.map f, after.map f, by rw [List.map_append, List.map_cons], ?_, ?_⟩
  · exact List.forall_mem_map.mpr hbefore
  · exact List.forall_mem_map.mpr hafter

theorem cons_lt (h : FirstLeast key xs a) (hb : key a < key b) : FirstLeast key (b :: xs) a := by
  obtain ⟨before, after, rfl, hbefore, hafter⟩ := h
  exact ⟨b :: before, after, rfl, List.forall_mem_cons.mpr ⟨hb, hbefore⟩, hafter⟩

variable [LawfulQuantity T]

theorem le (hnonneg : ∀ b ∈ xs, 0 ≤ key b) (h : FirstLeast key xs a) (hb : b ∈ xs) :
    key a ≤ key b := by
  have ha := hnonneg a h.mem
  have hb0 := hnonneg b hb
  obtain ⟨before, after, rfl, hbefore, hafter⟩ := h
  rcases List.mem_append.mp hb with hb | hb
  · exact Quantity.le_of_lt (hbefore b hb)
  · rcases List.mem_cons.mp hb with rfl | hb
    · exact Quantity.le_refl ha
    · exact Quantity.le_of_not_lt hb0 ha (hafter b hb)

/-- An entry that does not improve on the one before it can be put in behind. -/
theorem insert {held next : A} (hheld : 0 ≤ key held) (hnext : 0 ≤ key next)
    (h : FirstLeast key (held :: xs) a) (hn : ¬ key next < key held) :
    FirstLeast key (held :: next :: xs) a := by
  obtain ⟨before, after, hsplit, hbefore, hafter⟩ := h
  cases before with
  | nil =>
    obtain ⟨rfl, rfl⟩ := List.cons.inj hsplit
    exact ⟨[], next :: xs, rfl, by simp, List.forall_mem_cons.mpr ⟨hn, hafter⟩⟩
  | cons first before =>
    obtain ⟨rfl, rfl⟩ := List.cons.inj hsplit
    obtain ⟨hfirst, hbefore⟩ := List.forall_mem_cons.mp hbefore
    have hle := Quantity.le_of_not_lt hnext hheld hn
    refine ⟨held :: next :: before, after, rfl, ?_, hafter⟩
    exact List.forall_mem_cons.mpr ⟨hfirst,
      List.forall_mem_cons.mpr ⟨Quantity.lt_of_lt_of_le hfirst hle, hbefore⟩⟩

/-- The scan that gives up what it holds only for something better ends at the first of the
least. -/
theorem of_best? (hnonneg : ∀ b ∈ xs, 0 ≤ key b)
    (h : Selection.best? (fun a b => decide (key a < key b)) xs = some a) :
    FirstLeast key xs a := by
  have key (rest : List A) (held : A) (hall : ∀ b ∈ held :: rest, 0 ≤ key b) :
      FirstLeast key (held :: rest) (rest.foldl
        (fun held next => if decide (key next < key held) then next else held) held) := by
    induction rest generalizing held with
    | nil => exact ⟨[], [], rfl, by simp, by simp⟩
    | cons next rest ih =>
      obtain ⟨hheld, hrest⟩ := List.forall_mem_cons.mp hall
      rw [List.foldl_cons]
      by_cases hlt : key next < key held
      · rw [if_pos (decide_eq_true hlt)]
        have hfirst := ih next hrest
        exact hfirst.cons_lt (Quantity.lt_of_le_of_lt (hfirst.le hrest List.mem_cons_self) hlt)
      · rw [if_neg (by simpa using hlt)]
        obtain ⟨hnext, hrest⟩ := List.forall_mem_cons.mp hrest
        exact (ih held (List.forall_mem_cons.mpr ⟨hheld, hrest⟩)).insert hheld hnext hlt
  cases xs with
  | nil => simp [Selection.best?] at h
  | cons first rest =>
    obtain rfl := Option.some.inj h
    exact key rest first hnonneg

/-- The first of the least of the entries below a limit is the first of the least of all. -/
theorem of_filter (hnonneg : ∀ b ∈ xs, 0 ≤ key b) (hlimit : 0 ≤ limit)
    (h : FirstLeast key (xs.filter fun b => key b < limit) a) : FirstLeast key xs a := by
  have ha : key a < limit := of_decide_eq_true (List.mem_filter.mp h.mem).2
  obtain ⟨before, after, hsplit, hbefore, hafter⟩ := h
  obtain ⟨front, back, rfl, rfl, hback⟩ := List.filter_eq_append_iff.mp hsplit
  obtain ⟨skipped, rest, rfl, hskipped, -, rfl⟩ := List.filter_eq_cons_iff.mp hback
  refine ⟨front ++ skipped, rest, by rw [List.append_assoc], fun b hb => ?_, fun b hb hlt => ?_⟩
  · have hb0 := hnonneg b (by rcases List.mem_append.mp hb with hb | hb <;> simp [hb])
    by_cases hkept : key b < limit
    · rcases List.mem_append.mp hb with hb | hb
      · exact hbefore b (List.mem_filter.mpr ⟨hb, decide_eq_true hkept⟩)
      · exact absurd (decide_eq_true hkept) (hskipped b hb)
    · exact Quantity.lt_of_lt_of_le ha (Quantity.le_of_not_lt hb0 hlimit hkept)
  · have hkept : key b < limit := Quantity.lt_trans hlt ha
    exact hafter b (List.mem_filter.mpr ⟨hb, decide_eq_true hkept⟩) hlt

end FirstLeast

end JobAllocation
