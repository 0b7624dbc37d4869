import Mathlib.Data.List.TakeDrop
import Mathlib.Data.List.TakeWhile

/-!
# Runs at the front of a list

Readers take as many elements of a kind as there are at the front of a list. Where the list has been
put together, the run is the part that was meant, if all of that is of the kind and what follows
does not begin with another one (`span_append_of_forall`).
-/

namespace BslLint

variable {α : Type*} {p : α → Bool} {r v w : List α}

theorem length_takeWhile_le (p : α → Bool) (text : List α) :
    (text.takeWhile p).length ≤ text.length :=
  (List.takeWhile_prefix p).length_le

/-- What a run reaches over is all of its kind. -/
theorem forall_of_length_takeWhile (h : ((r ++ w).takeWhile p).length = r.length) :
    ∀ c ∈ r, p c = true := by
  have hprefix : (r ++ w).takeWhile p <+: r ++ w := List.takeWhile_prefix p
  have heq : (r ++ w).takeWhile p = r :=
    (List.prefix_of_prefix_length_le hprefix (List.prefix_append r w)
      (Nat.le_of_eq h)).eq_of_length h
  intro c hc
  rw [← heq] at hc
  exact List.mem_takeWhile_imp hc

/-- A run ends in front of an element that is not of its kind. -/
theorem takeWhile_append_of_head (h : ∀ c, v.head? = some c → p c = false) :
    (r ++ v).takeWhile p = r.takeWhile p := by
  induction r with
  | nil =>
    cases v with
    | nil => rfl
    | cons c v => rw [List.nil_append, List.takeWhile_cons, h c rfl]; rfl
  | cons d r ih => rw [List.cons_append, List.takeWhile_cons, List.takeWhile_cons, ih]

/-- A run is what it consists of, -/
theorem takeWhile_append_of_forall (hr : ∀ c ∈ r, p c = true)
    (hv : ∀ c, v.head? = some c → p c = false) : (r ++ v).takeWhile p = r := by
  rw [takeWhile_append_of_head hv, List.takeWhile_eq_self_iff]
  exact hr

/-- and behind it stands what follows, -/
theorem dropWhile_append_of_forall (hr : ∀ c ∈ r, p c = true)
    (hv : ∀ c, v.head? = some c → p c = false) : (r ++ v).dropWhile p = v := by
  have h := List.takeWhile_append_dropWhile (p := p) (l := r ++ v)
  rw [takeWhile_append_of_forall hr hv] at h
  exact List.append_cancel_left h

/-- so the two can be told apart. -/
theorem span_append_of_forall (hr : ∀ c ∈ r, p c = true)
    (hv : ∀ c, v.head? = some c → p c = false) : (r ++ v).span p = (r, v) := by
  rw [List.span_eq_takeWhile_dropWhile, takeWhile_append_of_forall hr hv,
    dropWhile_append_of_forall hr hv]

/-- A text put together from parts begins with the first of them. -/
theorem exists_intercalate_cons (sep x : List α) (xs : List (List α)) :
    ∃ tail, sep.intercalate (x :: xs) = x ++ tail := by
  cases xs with
  | nil => exact ⟨[], List.intercalate_singleton.trans (List.append_nil x).symm⟩
  | cons y ys => exact ⟨_, List.intercalate_cons_cons.trans (List.append_assoc ..)⟩

/-- The element behind a run that reaches exactly as far as a list. -/
theorem head_takeWhile_eq_false (h : ((r ++ w).takeWhile p).length = r.length) :
    ∀ c, w.head? = some c → p c = false := by
  intro c hc
  rcases w with - | ⟨d, w⟩
  · exact nomatch hc
  · obtain rfl := Option.some.inj hc
    rw [List.takeWhile_append_of_pos (forall_of_length_takeWhile h), List.length_append] at h
    rw [Bool.eq_false_iff]
    intro hd
    rw [List.takeWhile_cons, if_pos hd, List.length_cons] at h
    omega

end BslLint
