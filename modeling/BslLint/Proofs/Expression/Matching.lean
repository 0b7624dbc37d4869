import BslLint.Expression.Equality
import Mathlib.Data.List.Forall2
import Mathlib.Data.List.Perm.Basic

/-!
# What greedy matching finds

`matchedGreedily` never goes back on a choice: the first element that passes the test is struck out,
whatever the later elements would have needed. So success certifies that the second list can be
reordered to pass place by place (`matchable_of_matchedGreedily`), whatever the test is, but the
converse needs a law. The law is `Exchangeable`: two elements of the first list that share a partner
share all partners. An equivalence has it, and the exchange is all of an equivalence that is used.
-/

namespace BslLint

variable {α β : Type} {test : α → β → Bool}

/-- Some order of the second list passes the test with the first list place by place. -/
def Matchable (test : α → β → Bool) (xs : List α) (ys : List β) : Prop :=
  ∃ zs : List β, zs.Perm ys ∧ List.Forall₂ (fun x y ↦ test x y = true) xs zs

/-- Elements of the first list that have a partner in common have all partners in common. -/
def Exchangeable (test : α → β → Bool) (xs : List α) (ys : List β) : Prop :=
  ∀ x ∈ xs, ∀ x' ∈ xs, ∀ y ∈ ys, ∀ y' ∈ ys,
    test x y = true → test x y' = true → test x' y = true → test x' y' = true

namespace Matchable

theorem refl {test : α → α → Bool} {xs : List α} (h : ∀ x ∈ xs, test x x = true) :
    Matchable test xs xs :=
  ⟨xs, List.Perm.refl xs, List.forall₂_same.2 h⟩

/-- A matching can be read from the other side, -/
theorem symm {xs : List α} {ys : List β} {back : β → α → Bool}
    (hback : ∀ x ∈ xs, ∀ y ∈ ys, test x y = true → back y x = true) (h : Matchable test xs ys) :
    Matchable back ys xs := by
  obtain ⟨zs, hzs, hall⟩ := h
  have hflip : List.Forall₂ (fun z x ↦ back z x = true) zs xs := by
    replace hback : ∀ x ∈ xs, ∀ z ∈ zs, test x z = true → back z x = true :=
      fun x hx z hz ↦ hback x hx z (hzs.subset hz)
    clear hzs
    induction hall with
    | nil => exact .nil
    | cons hxz _ ih =>
      exact .cons (hback _ List.mem_cons_self _ List.mem_cons_self hxz)
        (ih fun x hx z hz ↦ hback x (List.mem_cons_of_mem _ hx) z (List.mem_cons_of_mem _ hz))
  obtain ⟨ws, hws, hperm⟩ := List.perm_comp_forall₂ hzs.symm hflip
  exact ⟨ws, hperm, hws⟩

/-- and two of them can be put together. -/
theorem trans {γ : Type} {xs : List α} {ys : List β} {zs : List γ} {test' : β → γ → Bool}
    {both : α → γ → Bool}
    (hboth : ∀ x ∈ xs, ∀ y z, test x y = true → test' y z = true → both x z = true)
    (h : Matchable test xs ys) (h' : Matchable test' ys zs) : Matchable both xs zs := by
  obtain ⟨us, hus, hxu⟩ := h
  obtain ⟨vs, hvs, hyv⟩ := h'
  obtain ⟨ws, huw, hwv⟩ := List.perm_comp_forall₂ hus hyv
  refine ⟨ws, hwv.trans hvs, ?_⟩
  clear hus hvs hyv hwv
  induction hxu generalizing ws with
  | nil =>
    obtain rfl := List.forall₂_nil_left_iff.1 huw
    exact .nil
  | cons hxu _ ih =>
    obtain ⟨w, ws, hw, hrest, rfl⟩ := List.forall₂_cons_left_iff.1 huw
    exact .cons (hboth _ List.mem_cons_self _ _ hxu hw)
      (ih (fun x hx ↦ hboth x (List.mem_cons_of_mem _ hx)) ws hrest)

end Matchable

/-! ### Striking out -/

/-- What is struck out is one element that passes, and the others are left. -/
theorem perm_of_strikeFirst?_eq_some {p : β → Bool} {ys rest : List β}
    (h : strikeFirst? p ys = some rest) : ∃ y, p y = true ∧ (y :: rest).Perm ys := by
  induction ys generalizing rest with
  | nil => simp [strikeFirst?] at h
  | cons z ys ih =>
    rw [strikeFirst?] at h
    split at h
    next hz =>
      obtain rfl := Option.some.inj h
      exact ⟨z, hz, List.Perm.refl _⟩
    next =>
      obtain ⟨rest', h', rfl⟩ := Option.map_eq_some_iff.1 h
      obtain ⟨y, hy, hperm⟩ := ih h'
      exact ⟨y, hy, (List.Perm.swap z y rest').trans (hperm.cons z)⟩

/-- Where one passes, one is struck out. -/
theorem exists_strikeFirst?_of_mem {p : β → Bool} {ys : List β} {y : β} (hy : y ∈ ys)
    (hp : p y = true) : ∃ rest, strikeFirst? p ys = some rest := by
  induction ys with
  | nil => exact absurd hy List.not_mem_nil
  | cons z ys ih =>
    rw [strikeFirst?]
    split
    next => exact ⟨ys, rfl⟩
    next hz =>
      rcases List.mem_cons.1 hy with rfl | hy
      · exact absurd hp hz
      · obtain ⟨rest, h⟩ := ih hy
        exact ⟨z :: rest, by rw [h, Option.map_some]⟩

/-! ### Success is a matching -/

/-- **What is matched greedily is a matching.** -/
theorem matchable_of_matchedGreedily {xs : List α} {ys : List β}
    (h : matchedGreedily test xs ys = true) : Matchable test xs ys := by
  induction xs generalizing ys with
  | nil =>
    rw [matchedGreedily, List.isEmpty_iff] at h
    exact ⟨[], by rw [h], .nil⟩
  | cons x xs ih =>
    rw [matchedGreedily] at h
    split at h
    next rest hrest =>
      obtain ⟨y, hy, hperm⟩ := perm_of_strikeFirst?_eq_some hrest
      obtain ⟨zs, hzs, hall⟩ := ih h
      exact ⟨y :: zs, (hzs.cons y).trans hperm, .cons hy hall⟩
    next => simp at h

/-- One partner may take the place of another where all that had the one have the other too. -/
theorem forall₂_replace {xs : List α} {s t : List β} {y z : β}
    (hyz : ∀ x ∈ xs, test x y = true → test x z = true)
    (h : List.Forall₂ (fun x y ↦ test x y = true) xs (s ++ y :: t)) :
    List.Forall₂ (fun x y ↦ test x y = true) xs (s ++ z :: t) := by
  induction s generalizing xs with
  | nil =>
    obtain ⟨x, xs, hx, hxs, rfl⟩ := List.forall₂_cons_right_iff.1 h
    exact .cons (hyz x List.mem_cons_self hx) hxs
  | cons u s ih =>
    obtain ⟨x, xs, hx, hxs, rfl⟩ := List.forall₂_cons_right_iff.1 h
    exact .cons hx (ih (fun x' hx' ↦ hyz x' (List.mem_cons_of_mem _ hx')) hxs)

/-- **Greedy is as good as any**, under the law of exchange. The element `y` that is struck out need
not be the partner `z` that the matching has in mind; then whoever had `y` takes `z`. -/
theorem matchedGreedily_of_matchable {xs : List α} {ys : List β} (hex : Exchangeable test xs ys)
    (h : Matchable test xs ys) : matchedGreedily test xs ys = true := by
  induction xs generalizing ys with
  | nil =>
    obtain ⟨zs, hzs, hall⟩ := h
    rw [List.forall₂_nil_left_iff.1 hall] at hzs
    rw [hzs.nil_eq.symm]
    rfl
  | cons x xs ih =>
    obtain ⟨_, hzs, hxzs⟩ := h
    obtain ⟨z, zs, hz, hall, rfl⟩ := List.forall₂_cons_left_iff.1 hxzs
    obtain ⟨rest, hrest⟩ := exists_strikeFirst?_of_mem (hzs.subset List.mem_cons_self) hz
    obtain ⟨y, hy, hperm⟩ := perm_of_strikeFirst?_eq_some hrest
    rw [matchedGreedily, hrest]
    refine ih (fun a ha b hb u hu v hv ↦ ?_) ?_
    · exact hex a (List.mem_cons_of_mem _ ha) b (List.mem_cons_of_mem _ hb) u
        (hperm.subset (List.mem_cons_of_mem _ hu)) v (hperm.subset (List.mem_cons_of_mem _ hv))
    · have hboth : (z :: zs).Perm (y :: rest) := hzs.trans hperm.symm
      rcases List.mem_cons.1 (hboth.symm.subset List.mem_cons_self) with rfl | hmem
      · exact ⟨zs, hboth.cons_inv, hall⟩
      · obtain ⟨s, t, rfl⟩ := List.append_of_mem hmem
        refine ⟨s ++ z :: t, ?_, forall₂_replace (fun x' hx' hx'y ↦ ?_) hall⟩
        · refine List.Perm.cons_inv (a := y) (List.Perm.trans ?_ hboth)
          calc (y :: (s ++ z :: t)).Perm (y :: z :: (s ++ t)) := List.perm_middle.cons y
            _ |>.Perm (z :: y :: (s ++ t)) := List.Perm.swap z y _
            _ |>.Perm (z :: (s ++ y :: t)) := List.perm_middle.symm.cons z
        · exact hex x List.mem_cons_self x' (List.mem_cons_of_mem _ hx') y
            (hperm.subset List.mem_cons_self) z (hzs.subset List.mem_cons_self) hy hz hx'y

/-! ### The elements under another name -/

/-- It makes no difference whether the elements or the test go through a function. -/
theorem matchedGreedily_map {γ : Type} (f : γ → α) (xs : List γ) (ys : List β) :
    matchedGreedily (fun x y ↦ test (f x) y) xs ys = matchedGreedily test (xs.map f) ys := by
  induction xs generalizing ys with
  | nil => rfl
  | cons x xs ih =>
    rw [List.map_cons, matchedGreedily, matchedGreedily]
    split <;> simp [*]

theorem allPaired_map {γ : Type} (f : γ → α) (xs : List γ) (ys : List β) :
    allPaired (fun x y ↦ test (f x) y) xs ys = allPaired test (xs.map f) ys := by
  induction xs generalizing ys with
  | nil => cases ys <;> rfl
  | cons x xs ih => cases ys <;> simp [allPaired, ih]

/-- Tests that agree on the first list pair it with the same lists. -/
theorem allPaired_congr {test' : α → β → Bool} {xs : List α}
    (h : ∀ x ∈ xs, ∀ y, test x y = test' x y) (ys : List β) :
    allPaired test xs ys = allPaired test' xs ys := by
  induction xs generalizing ys with
  | nil => cases ys <;> rfl
  | cons x xs ih =>
    obtain ⟨hx, hxs⟩ := List.forall_mem_cons.1 h
    cases ys with
    | nil => rfl
    | cons y ys => rw [allPaired, allPaired, hx, ih hxs]

/-- Lists are paired if they are equally long and all places pass the test. -/
theorem allPaired_eq_all (xs : List α) (ys : List β) : allPaired test xs ys =
    (xs.length == ys.length && (xs.zip ys).all fun (x, y) ↦ test x y) := by
  induction xs generalizing ys with
  | nil => cases ys <;> rfl
  | cons x xs ih =>
    cases ys with
    | nil => rfl
    | cons y ys => simp [allPaired, ih, Bool.and_left_comm]

theorem allPaired_beq {γ : Type} [BEq γ] [LawfulBEq γ] (xs ys : List γ) :
    allPaired (· == ·) xs ys = (xs == ys) := by
  induction xs generalizing ys with
  | nil => cases ys <;> rfl
  | cons x xs ih => cases ys <;> simp [allPaired, ih]

/-- Pairing is the test place by place. -/
theorem allPaired_iff_forall₂ {xs : List α} {ys : List β} :
    allPaired test xs ys = true ↔ List.Forall₂ (fun x y ↦ test x y = true) xs ys := by
  induction xs generalizing ys with
  | nil => cases ys <;> simp [allPaired]
  | cons x xs ih => cases ys <;> simp [allPaired, ih]

end BslLint
