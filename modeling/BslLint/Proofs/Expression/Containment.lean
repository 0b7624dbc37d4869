import BslLint.Proofs.Expression.Account
import BslLint.Proofs.Expression.Positions

/-!
# What stands in an expression

One expression stands in another one if it is found there at some position. The positions of an
expression are its parts in preorder, so **where no two parts come from one node, a part has a
single position** (`Expr.position_unique`).
-/

namespace BslLint.Expr

variable {x y z : Expr} {p q : List Nat}

/-- The other expression stands somewhere in this one. -/
def Has (x y : Expr) : Prop := ∃ p, x.at? p = some y

theorem Has.refl (x : Expr) : x.Has x := ⟨[], rfl⟩

theorem Has.trans (hxy : x.Has y) (hyz : y.Has z) : x.Has z := by
  obtain ⟨p, hp⟩ := hxy
  obtain ⟨q, hq⟩ := hyz
  refine ⟨p ++ q, ?_⟩
  rw [at?_append, hp, Option.bind_some, hq]

theorem has_of_mem_direct (h : y ∈ x.direct) : x.Has y := by
  obtain ⟨i, hi⟩ := List.mem_iff_getElem?.1 h
  refine ⟨[i], ?_⟩
  rw [at?, hi]
  rfl

/-- What stands in an expression is the expression, or stands in what it is directly made of. -/
theorem has_iff : x.Has y ↔ y = x ∨ ∃ z ∈ x.direct, z.Has y := by
  constructor
  · rintro ⟨p, hp⟩
    cases p with
    | nil => exact .inl (Option.some.inj hp).symm
    | cons i p =>
      obtain ⟨z, hz, hp⟩ := Option.bind_eq_some_iff.1 hp
      exact .inr ⟨z, List.mem_of_getElem? hz, p, hp⟩
  · rintro (rfl | ⟨z, hz, hzy⟩)
    · exact .refl y
    · exact (has_of_mem_direct hz).trans hzy

theorem partsList_eq_flatMap (xs : List Expr) : partsList xs = xs.flatMap parts := by
  induction xs with
  | nil => rfl
  | cons x xs ih => rw [partsList, ih, List.flatMap_cons]

/-- The parts of an expression are the expression and the parts of what it is directly made of. -/
theorem parts_eq (x : Expr) : x.parts = x :: x.direct.flatMap parts := by
  cases x <;> simp [parts, direct, partsList_eq_flatMap]

theorem mem_parts_iff : y ∈ x.parts ↔ x.Has y := by
  induction x using inductionOnDirect with
  | step x ih =>
    rw [parts_eq, List.mem_cons, List.mem_flatMap, has_iff]
    exact or_congr_right (exists_congr fun z ↦ and_congr_right fun hz ↦ ih z hz)

/-! ### Positions -/

/-- What a part does, and the node that it comes from. -/
def station? (x : Expr) : Option (Role × Nat) := x.role?.map (·, x.origin.node)

/-- The stations of all parts. -/
def stations (x : Expr) : List (Role × Nat) := x.parts.filterMap station?

theorem mem_stations {s : Role × Nat} (hxy : x.Has y) (hy : y.station? = some s) :
    s ∈ x.stations :=
  List.mem_filterMap.2 ⟨y, mem_parts_iff.2 hxy, hy⟩

theorem stations_eq (x : Expr) :
    x.stations = x.station?.toList ++ x.direct.flatMap stations := by
  rw [stations, parts_eq, List.filterMap_cons, List.filterMap_flatMap]
  cases x.station? <;> rfl

/-- Where no two parts have one station, an expression has another one than what stands in what it
is directly made of. -/
theorem station?_ne_of_has {s : Role × Nat} (hnodup : x.stations.Nodup) (hy : y ∈ x.direct)
    (hyz : y.Has z) (hz : z.station? = some s) : x.station? ≠ some s := by
  intro hx
  rw [stations_eq, hx, List.nodup_append'] at hnodup
  refine hnodup.2.2 (List.mem_singleton_self s) ?_
  exact List.mem_flatMap.2 ⟨y, hy, mem_stations hyz hz⟩

/-- **A part has a single position**, where no two parts have one station. -/
theorem position_unique {s : Role × Nat} (hnodup : x.stations.Nodup) (hy : x.at? p = some y)
    (hz : x.at? q = some z) (hys : y.station? = some s) (hzs : z.station? = some s) : p = q := by
  induction p generalizing x q with
  | nil =>
    cases q with
    | nil => rfl
    | cons j q =>
      obtain rfl := Option.some.inj hy
      obtain ⟨b, hb, hz⟩ := Option.bind_eq_some_iff.1 hz
      exact absurd hys (station?_ne_of_has hnodup (List.mem_of_getElem? hb) ⟨q, hz⟩ hzs)
  | cons i p ih =>
    obtain ⟨a, ha, hy⟩ := Option.bind_eq_some_iff.1 hy
    cases q with
    | nil =>
      obtain rfl := Option.some.inj hz
      exact absurd hzs (station?_ne_of_has hnodup (List.mem_of_getElem? ha) ⟨p, hy⟩ hys)
    | cons j q =>
      obtain ⟨b, hb, hz⟩ := Option.bind_eq_some_iff.1 hz
      rw [stations_eq, List.nodup_append', List.nodup_flatMap] at hnodup
      obtain ⟨-, ⟨hparts, hapart⟩, -⟩ := hnodup
      -- what stands in different operands has different stations
      obtain rfl : i = j := by
        by_contra hne
        obtain ⟨hi, rfl⟩ := List.getElem?_eq_some_iff.1 ha
        obtain ⟨hj, rfl⟩ := List.getElem?_eq_some_iff.1 hb
        have hdisjoint : (x.direct[i].stations).Disjoint x.direct[j].stations := by
          rcases Nat.lt_or_gt_of_ne hne with hlt | hlt
          · exact List.pairwise_iff_getElem.1 hapart i j hi hj hlt
          · exact fun s hs hs' ↦ List.pairwise_iff_getElem.1 hapart j i hj hi hlt hs' hs
        exact hdisjoint (mem_stations ⟨p, hy⟩ hys) (mem_stations ⟨q, hz⟩ hzs)
      obtain rfl := Option.some.inj (ha.symm.trans hb)
      rw [ih (hparts a (List.mem_of_getElem? ha)) hy hz]

end BslLint.Expr
