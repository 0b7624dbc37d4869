import Mathlib.Data.List.Forall2

/-!
# Attempts one after the other

A list of attempts comes out if all of them do, and then with what comes out of each
(`mapM_eq_ok_iff`). Where it fails, it fails with a failure of one of them.
-/

namespace BslLint

variable {ε α β : Type} {g : α → Except ε β} {xs : List α} {ys : List β}

/-- What one side of related lists has, the other side is related to. -/
theorem exists_of_mem_right {R : α → β → Prop} (h : List.Forall₂ R xs ys) {y : β} (hy : y ∈ ys) :
    ∃ x ∈ xs, R x y := by
  induction h with
  | nil => exact nomatch hy
  | @cons x z xs ys hxz _ ih =>
    obtain rfl | hy := List.mem_cons.1 hy
    · exact ⟨x, List.mem_cons_self, hxz⟩
    · obtain ⟨x', hx', hR⟩ := ih hy
      exact ⟨x', List.mem_cons_of_mem _ hx', hR⟩

/-- Two attempts come out if the first does and then the second. -/
theorem bind_eq_ok_iff {x : Except ε α} {f : α → Except ε β} {b : β} :
    x >>= f = .ok b ↔ ∃ a, x = .ok a ∧ f a = .ok b := by
  cases x <;> simp [bind, Except.bind]

theorem pure_eq_ok_iff {a b : α} : (pure a : Except ε α) = .ok b ↔ a = b := by
  simp [pure, Except.pure]

theorem throw_ne_ok {e : ε} {a : α} : (throw e : Except ε α) ≠ .ok a := nofun

/-- **All attempts come out, or the list does not.** -/
theorem mapM_eq_ok_iff : xs.mapM g = .ok ys ↔ List.Forall₂ (fun x y ↦ g x = .ok y) xs ys := by
  induction xs generalizing ys with
  | nil =>
    rw [List.forall₂_nil_left_iff]
    exact ⟨fun h ↦ (Except.ok.inj h).symm, fun h ↦ congrArg Except.ok h.symm⟩
  | cons x xs ih =>
    simp only [List.mapM_cons, bind_eq_ok_iff, pure_eq_ok_iff, ih]
    constructor
    · rintro ⟨y, hx, ys, hxs, rfl⟩
      exact .cons hx hxs
    · rintro (_ | ⟨hx, hxs⟩)
      exact ⟨_, hx, _, hxs, rfl⟩

/-- A list of attempts that come out one by one comes out. -/
theorem mapM_eq_ok_map {f : α → β} (h : ∀ x ∈ xs, g x = .ok (f x)) :
    xs.mapM g = .ok (xs.map f) := by
  rw [mapM_eq_ok_iff, List.forall₂_map_right_iff, List.forall₂_same]
  exact h

/-- What comes out of a list of attempts came out of one of them. -/
theorem exists_of_mem_of_mapM_ok (h : xs.mapM g = .ok ys) : ∀ y ∈ ys, ∃ x ∈ xs, g x = .ok y :=
  fun _ hy ↦ exists_of_mem_right (mapM_eq_ok_iff.1 h) hy

/-- Where a list of attempts comes out, each of them does. -/
theorem forall_mem_of_mapM_ok (h : xs.mapM g = .ok ys) : ∀ x ∈ xs, ∃ y, g x = .ok y := by
  induction mapM_eq_ok_iff.1 h with
  | nil => exact nofun
  | cons hx hxs ih => exact List.forall_mem_cons.2 ⟨⟨_, hx⟩, ih (mapM_eq_ok_iff.2 hxs)⟩

/-- A failure of the list is that of one of the attempts. -/
theorem exists_of_mapM_eq_error {e : ε} (h : xs.mapM g = .error e) : ∃ x ∈ xs, g x = .error e := by
  induction xs with
  | nil => exact nomatch h
  | cons x xs ih =>
    rw [List.mapM_cons] at h
    cases hx : g x with
    | error e' =>
      rw [hx] at h
      obtain rfl : e' = e := Except.error.inj h
      exact ⟨x, List.mem_cons_self, hx⟩
    | ok y =>
      -- The first attempt went well, so that of a later one failed.
      cases hxs : xs.mapM g with
      | error e' =>
        rw [hx, hxs] at h
        obtain rfl : e' = e := Except.error.inj h
        obtain ⟨x', hx', he⟩ := ih hxs
        exact ⟨x', List.mem_cons_of_mem _ hx', he⟩
      | ok ys =>
        rw [hx, hxs] at h
        exact nomatch h

/-! ### Answers -/

/-- A list of questions is answered if all of them are. -/
theorem mapM_eq_some_iff {f : α → Option β} :
    xs.mapM f = some ys ↔ List.Forall₂ (fun x y ↦ f x = some y) xs ys := by
  induction xs generalizing ys with
  | nil => simp [eq_comm]
  | cons x xs ih =>
    simp only [List.mapM_cons, Option.bind_eq_bind, Option.bind_eq_some_iff, ih]
    constructor
    · rintro ⟨y, hx, ys, hxs, ⟨⟩⟩
      exact .cons hx hxs
    · rintro (_ | ⟨hx, hxs⟩)
      exact ⟨_, hx, _, hxs, rfl⟩

/-- Where every question has its answer, so has the list. -/
theorem mapM_eq_some_map {f : α → Option β} {answer : α → β} (h : ∀ x ∈ xs, f x = some (answer x)) :
    xs.mapM f = some (xs.map answer) := by
  rw [mapM_eq_some_iff, List.forall₂_map_right_iff, List.forall₂_same]
  exact h

end BslLint
