/-! # Conditions that are checked in order

A check that goes through conditions one by one fails with the failure of the
first that is not met. What a check accepts and what it reports are then both
read off the list of its conditions, and checks that follow each other check one
list behind the other.
-/

namespace Toolpath

/-- A condition, with the failure of what does not meet it. -/
structure Requirement (ε : Type) where
  holds : Prop
  failure : ε

namespace Requirement

variable {ε δ : Type} {requirement : Requirement ε} {requirements more : List (Requirement ε)}
  {failure : ε} {check next : Except ε Unit}

/-- Every condition is met. -/
def AllMet (requirements : List (Requirement ε)) : Prop :=
  ∀ requirement ∈ requirements, requirement.holds

/-- Some condition is not met, and the failure is that of the first such. -/
inductive FirstUnmet : List (Requirement ε) → ε → Prop
  | here {requirement : Requirement ε} {requirements : List (Requirement ε)}
      (hunmet : ¬requirement.holds) : FirstUnmet (requirement :: requirements) requirement.failure
  | later {requirement : Requirement ε} {requirements : List (Requirement ε)} {failure : ε}
      (hmet : requirement.holds) (hrest : FirstUnmet requirements failure) :
      FirstUnmet (requirement :: requirements) failure

/-- The check accepts what meets all conditions, and reports the first that is not met. -/
structure Decides (requirements : List (Requirement ε)) (check : Except ε Unit) : Prop where
  ok_iff : check = .ok () ↔ AllMet requirements
  error_iff : ∀ failure, check = .error failure ↔ FirstUnmet requirements failure

/-- The same condition with its failure told differently. -/
def relabel (f : ε → δ) (requirement : Requirement ε) : Requirement δ :=
  ⟨requirement.holds, f requirement.failure⟩

theorem FirstUnmet.exists_mem (h : FirstUnmet requirements failure) :
    ∃ requirement ∈ requirements, ¬requirement.holds ∧ requirement.failure = failure := by
  induction h with
  | here hunmet => exact ⟨_, List.mem_cons_self .., hunmet, rfl⟩
  | later _ _ ih =>
      obtain ⟨requirement, hmem, hunmet, hfailure⟩ := ih
      exact ⟨requirement, List.mem_cons_of_mem _ hmem, hunmet, hfailure⟩

theorem FirstUnmet.not_allMet (h : FirstUnmet requirements failure) : ¬AllMet requirements := by
  obtain ⟨requirement, hmem, hunmet, -⟩ := h.exists_mem
  exact fun hall => hunmet (hall requirement hmem)

theorem firstUnmet_cons_iff : FirstUnmet (requirement :: requirements) failure ↔
    (¬requirement.holds ∧ requirement.failure = failure) ∨
      (requirement.holds ∧ FirstUnmet requirements failure) := by
  constructor
  · intro h
    cases h with
    | here hunmet => exact .inl ⟨hunmet, rfl⟩
    | later hmet hrest => exact .inr ⟨hmet, hrest⟩
  · rintro (⟨hunmet, rfl⟩ | ⟨hmet, hrest⟩)
    · exact .here hunmet
    · exact .later hmet hrest

theorem firstUnmet_append_iff : FirstUnmet (requirements ++ more) failure ↔
    FirstUnmet requirements failure ∨ (AllMet requirements ∧ FirstUnmet more failure) := by
  induction requirements with
  | nil => exact ⟨fun h => .inr ⟨nofun, h⟩, fun h => h.elim nofun And.right⟩
  | cons requirement requirements ih =>
      rw [List.cons_append, firstUnmet_cons_iff, firstUnmet_cons_iff, ih, AllMet, AllMet,
        List.forall_mem_cons]
      by_cases hmet : requirement.holds
      · simp only [hmet, not_true_eq_false, false_and, true_and, false_or]
      · simp only [hmet, not_false_eq_true, false_and, true_and, or_false]

theorem firstUnmet_map_relabel_iff {f : ε → δ} {told : δ} :
    FirstUnmet (requirements.map (relabel f)) told ↔
      ∃ failure, FirstUnmet requirements failure ∧ f failure = told := by
  induction requirements with
  | nil => exact ⟨nofun, fun ⟨_, h, _⟩ => nomatch h⟩
  | cons requirement requirements ih =>
      rw [List.map_cons, firstUnmet_cons_iff, ih]
      constructor
      · rintro (⟨hunmet, htold⟩ | ⟨hmet, failure, hrest, htold⟩)
        · exact ⟨requirement.failure, .here hunmet, htold⟩
        · exact ⟨failure, .later hmet hrest, htold⟩
      · rintro ⟨failure, h, htold⟩
        rcases firstUnmet_cons_iff.mp h with ⟨hunmet, rfl⟩ | ⟨hmet, hrest⟩
        · exact .inl ⟨hunmet, htold⟩
        · exact .inr ⟨hmet, failure, hrest, htold⟩

/-! ## Checks -/

theorem decides_nil : Decides ([] : List (Requirement ε)) (.ok ()) where
  ok_iff := iff_of_true rfl nofun
  error_iff _ := iff_of_false nofun nofun

/-- A condition checked first goes to the front of the list. -/
theorem Decides.refuse {refused : Prop} [Decidable refused] (hmet : ¬refused ↔ requirement.holds)
    (hfailure : refused → failure = requirement.failure) (hcheck : Decides requirements check) :
    Decides (requirement :: requirements) (if refused then .error failure else check) := by
  split
  next h =>
    have hunmet : ¬requirement.holds := fun hholds => hmet.mpr hholds h
    obtain rfl := hfailure h
    constructor
    · exact iff_of_false nofun fun hall => hunmet (hall requirement (List.mem_cons_self ..))
    · intro other
      rw [firstUnmet_cons_iff, Except.error.injEq]
      simp only [hunmet, not_false_eq_true, true_and, false_and, or_false]
  next h =>
    have hholds := hmet.mp h
    constructor
    · rw [hcheck.ok_iff, AllMet, AllMet, List.forall_mem_cons, and_iff_right hholds]
    · intro other
      rw [firstUnmet_cons_iff, hcheck.error_iff]
      simp only [hholds, not_true_eq_false, false_and, true_and, false_or]

/-- A check that comes after another one only adds to it what is checked. -/
theorem Decides.andThen (hcheck : Decides requirements check) (hnext : Decides more next) :
    Decides (requirements ++ more) (check >>= fun _ => next) := by
  have hall : AllMet (requirements ++ more) ↔ AllMet requirements ∧ AllMet more :=
    List.forall_mem_append
  cases hresult : check with
  | error failure =>
      have hfirst := (hcheck.error_iff failure).mp hresult
      constructor
      · exact iff_of_false nofun fun h => hfirst.not_allMet (hall.mp h).1
      · intro other
        rw [firstUnmet_append_iff, ← hcheck.error_iff, hresult]
        exact ⟨.inl, fun h => h.elim id fun ⟨hmet, _⟩ => absurd hmet hfirst.not_allMet⟩
  | ok _ =>
      have hmet := hcheck.ok_iff.mp hresult
      constructor
      · rw [hall, ← hnext.ok_iff]
        exact ⟨fun h => ⟨hmet, h⟩, And.right⟩
      · intro other
        rw [firstUnmet_append_iff, ← hnext.error_iff]
        exact ⟨fun h => .inr ⟨hmet, h⟩, fun h => h.elim (fun hfirst => absurd hmet hfirst.not_allMet)
          And.right⟩

theorem Decides.mapError (hcheck : Decides requirements check) (f : ε → δ) :
    Decides (requirements.map (relabel f)) (check.mapError f) := by
  constructor
  · have hall : AllMet (requirements.map (relabel f)) ↔ AllMet requirements := List.forall_mem_map
    rw [hall, ← hcheck.ok_iff]
    cases check with
    | error failure => exact iff_of_false nofun nofun
    | ok _ => exact iff_of_true rfl rfl
  · intro told
    rw [firstUnmet_map_relabel_iff]
    simp only [← hcheck.error_iff]
    cases check with
    | error failure =>
        constructor
        · intro h
          exact ⟨failure, rfl, Except.error.inj h⟩
        · rintro ⟨_, h, rfl⟩
          rw [Except.error.inj h]
          rfl
    | ok _ => exact ⟨nofun, fun ⟨_, h, _⟩ => nomatch h⟩

end Requirement

end Toolpath
