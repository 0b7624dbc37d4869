import BslLint.Data.KeyMap
import Mathlib.Data.List.Nodup
import Mathlib.Data.List.Sort
import Mathlib.Data.String.Basic

/-!
# Entries of maps

In a map no name comes twice, because names ascend (`KeyMap.Ascending`). Putting a value in keeps
that, and what is in the map then is told entry by entry (`KeyMap.Ascending.mem_insert_iff`).
-/

namespace BslLint.KeyMap

variable {α : Type} {m : KeyMap α} {name : String} {value : α}

/-- The names of the entries ascend strictly. -/
def Ascending (m : KeyMap α) : Prop := m.Pairwise fun a b ↦ a.1 < b.1

/-- Putting in a value adds no entry but its own. -/
theorem mem_of_mem_insert {a : String × α} (h : a ∈ m.insert name value) :
    a = (name, value) ∨ a ∈ m := by
  fun_induction insert m name value with
  | case1 => exact .inl (List.mem_singleton.1 h)
  | case2 n v rest hlt => exact (List.mem_cons.1 h).imp id id
  | case3 v rest hlt => exact (List.mem_cons.1 h).imp id (List.mem_cons_of_mem _)
  | case4 n v rest hlt hne ih =>
    obtain rfl | h := List.mem_cons.1 h
    · exact .inr List.mem_cons_self
    · exact (ih h).imp id (List.mem_cons_of_mem _)

/-- The order is kept, because a value is put in at its place. -/
theorem Ascending.insert (h : Ascending m) : Ascending (m.insert name value) := by
  fun_induction KeyMap.insert m name value with
  | case1 => exact List.pairwise_singleton _ _
  | case2 n v rest hlt =>
    refine List.pairwise_cons.2 ⟨List.forall_mem_cons.2 ⟨hlt, fun a ha ↦ ?_⟩, h⟩
    exact hlt.trans (List.rel_of_pairwise_cons h ha)
  | case3 v rest hlt =>
    exact List.pairwise_cons.2 ⟨fun a ha ↦ List.rel_of_pairwise_cons h ha, h.of_cons⟩
  | case4 n v rest hlt hne ih =>
    refine List.pairwise_cons.2 ⟨fun a ha ↦ ?_, ih h.of_cons⟩
    obtain rfl | ha := mem_of_mem_insert ha
    · exact lt_of_le_of_ne (not_lt.1 hlt) hne
    · exact List.rel_of_pairwise_cons h ha

/-- In an ordered map no name comes twice. -/
theorem Ascending.nodup (h : Ascending m) : (m.map Prod.fst).Nodup :=
  List.pairwise_map.2 (h.imp fun hlt ↦ hlt.ne)

/-- A name leads to one entry. -/
theorem Ascending.eq_of_mem (h : Ascending m) {v w : α} (hv : (name, v) ∈ m)
    (hw : (name, w) ∈ m) : v = w :=
  congrArg Prod.snd (List.inj_on_of_nodup_map h.nodup hv hw rfl)

theorem mem_insert_self : (name, value) ∈ m.insert name value := by
  fun_induction insert m name value with
  | case4 n v rest hlt hne ih => exact List.mem_cons_of_mem _ ih
  | _ => exact List.mem_cons_self

/-- Entries of other names stay. -/
theorem mem_insert_of_ne {a : String × α} (ha : a ∈ m) (hne : a.1 ≠ name) :
    a ∈ m.insert name value := by
  fun_induction insert m name value with
  | case1 => exact nomatch ha
  | case2 n v rest hlt => exact List.mem_cons_of_mem _ ha
  | case3 v rest hlt =>
    obtain rfl | ha := List.mem_cons.1 ha
    · exact absurd rfl hne
    · exact List.mem_cons_of_mem _ ha
  | case4 n v rest hlt hne ih =>
    obtain rfl | ha := List.mem_cons.1 ha
    · exact List.mem_cons_self
    · exact List.mem_cons_of_mem _ (ih ha)

/-- What is in a map behind a value that was put in. -/
theorem Ascending.mem_insert_iff (h : Ascending m) {k : String} {v : α} :
    (k, v) ∈ m.insert name value ↔ k = name ∧ v = value ∨ k ≠ name ∧ (k, v) ∈ m := by
  constructor
  · intro hmem
    by_cases hk : k = name
    · subst hk
      exact .inl ⟨rfl, h.insert.eq_of_mem hmem mem_insert_self⟩
    · exact .inr ⟨hk, (mem_of_mem_insert hmem).resolve_left fun heq ↦ hk (congrArg Prod.fst heq)⟩
  · rintro (⟨rfl, rfl⟩ | ⟨hne, hmem⟩)
    · exact mem_insert_self
    · exact mem_insert_of_ne hmem hne

/-- What is found in an ordered map is what an entry holds. -/
theorem Ascending.find?_eq_some_iff (h : Ascending m) {v : α} :
    m.find? name = some v ↔ (name, v) ∈ m := by
  constructor
  · intro hfind
    obtain ⟨⟨k, w⟩, hw, rfl⟩ := Option.map_eq_some_iff.1 hfind
    obtain rfl : k = name := by simpa using List.find?_some hw
    exact List.mem_of_find?_eq_some hw
  · intro hmem
    have hsome : (List.find? (·.1 == name) m).isSome := by
      rw [List.find?_isSome]
      exact ⟨_, hmem, beq_self_eq_true name⟩
    obtain ⟨⟨k, w⟩, hw⟩ := Option.isSome_iff_exists.1 hsome
    obtain rfl : k = name := by simpa using List.find?_some hw
    rw [find?, hw, h.eq_of_mem (List.mem_of_find?_eq_some hw) hmem]
    rfl

/-! ### Looking up behind a change -/

theorem find?_cons (entry : String × α) (m : KeyMap α) :
    find? (entry :: m) name = if entry.1 = name then some entry.2 else m.find? name := by
  simp only [find?, List.find?_cons]
  split
  next h => rw [if_pos (eq_of_beq h), Option.map_some]
  next h => rw [if_neg (ne_of_beq_false h)]

/-- If no name comes twice, what is found is what an entry holds. -/
theorem find?_eq_some_iff {entries : List (String × α)} (h : (entries.map Prod.fst).Nodup)
    {k : String} {v : α} : find? entries k = some v ↔ (k, v) ∈ entries := by
  induction entries with
  | nil => simp [find?]
  | cons e es ih =>
    obtain ⟨hfresh, hes⟩ := List.nodup_cons.1 h
    rw [find?_cons, List.mem_cons]
    split
    next hk =>
      subst hk
      refine ⟨fun hv ↦ .inl (by rw [← Option.some.inj hv]), ?_⟩
      rintro (heq | hmem)
      · rw [← heq]
      · -- A second entry of this name would come twice.
        exact absurd (List.mem_map_of_mem hmem) hfresh
    next hk =>
      rw [ih hes]
      refine ⟨.inr, fun hmem ↦ hmem.resolve_left ?_⟩
      rintro rfl
      exact hk rfl

/-- A value that was put in is found, and the others are found as before. -/
theorem find?_insert (m : KeyMap α) (name : String) (value : α) (k : String) :
    (m.insert name value).find? k = if k = name then some value else m.find? k := by
  fun_induction insert m name value with
  | case1 => rw [find?_cons, if_congr eq_comm rfl rfl]
  | case2 n v rest hlt => rw [find?_cons (name, value), if_congr eq_comm rfl rfl]
  | case3 v rest hlt =>
    by_cases hk : k = name
    · rw [find?_cons, if_pos hk.symm, if_pos hk]
    · rw [find?_cons, find?_cons, if_neg (Ne.symm hk), if_neg hk, if_neg (Ne.symm hk)]
  | case4 n v rest hlt hne ih =>
    rw [find?_cons, find?_cons, ih]
    by_cases hk : k = name
    · rw [if_pos hk, if_pos hk, if_neg (hk ▸ hne)]
    · rw [if_neg hk, if_neg hk]

/-- What was taken out is not found any more, and the others are found as before. -/
theorem find?_erase (m : KeyMap α) (name k : String) :
    (m.erase name).find? k = if k = name then none else m.find? k := by
  induction m with
  | nil => exact (ite_self none).symm
  | cons entry m ih =>
    rw [erase, List.filter_cons]
    split
    next hkeep =>
      rw [find?_cons, find?_cons, show find? (m.filter _) k = _ from ih]
      by_cases hk : k = name
      · rw [if_pos hk, if_pos hk, if_neg (hk ▸ bne_iff_ne.1 hkeep)]
      · rw [if_neg hk, if_neg hk]
    next hdrop =>
      rw [show find? (m.filter _) k = _ from ih, find?_cons]
      by_cases hk : k = name
      · rw [if_pos hk, if_pos hk]
      · have hentry : entry.1 = name := by simpa using hdrop
        rw [if_neg hk, if_neg hk, if_neg (hentry ▸ Ne.symm hk)]

/-! ### Maps from lists of entries -/

/-- A map is known by what is found in it. -/
theorem Ascending.ext {m' : KeyMap α} (h : Ascending m) (h' : Ascending m')
    (hfind : ∀ k, m.find? k = m'.find? k) : m = m' := by
  have : Std.Irrefl fun a b : String × α ↦ a.1 < b.1 := ⟨fun a ↦ lt_irrefl a.1⟩
  refine List.Pairwise.eq_of_mem_iff h h' fun a ↦ ?_
  rw [← h.find?_eq_some_iff, ← h'.find?_eq_some_iff, hfind]

/-- Nothing is found for a name that is not listed. -/
theorem find?_eq_none {entries : List (String × α)} {k : String}
    (h : k ∉ entries.map Prod.fst) : find? entries k = none := by
  rw [find?, Option.map_eq_none_iff, List.find?_eq_none]
  exact fun a ha hak ↦ h (List.mem_map.2 ⟨a, ha, eq_of_beq hak⟩)

theorem ascending_ofList (entries : List (String × α)) : Ascending (ofList entries) := by
  suffices hfold : ∀ m : KeyMap α, Ascending m →
      Ascending (entries.foldl (fun m e ↦ m.insert e.1 e.2) m) from hfold [] List.Pairwise.nil
  induction entries with
  | nil => exact fun _ hm ↦ hm
  | cons e es ih => exact fun _ hm ↦ ih _ hm.insert

/-- If no name comes twice, a map holds for each name what its entry holds. -/
theorem find?_ofList {entries : List (String × α)} (h : (entries.map Prod.fst).Nodup) (k : String) :
    (ofList entries).find? k = find? entries k := by
  suffices hfold : ∀ m : KeyMap α, (entries.foldl (fun m e ↦ m.insert e.1 e.2) m).find? k =
      (find? entries k).or (m.find? k) from (hfold []).trans Option.or_none
  induction entries with
  | nil => exact fun _ ↦ rfl
  | cons e es ih =>
    intro m
    obtain ⟨hfresh, hes⟩ := List.nodup_cons.1 h
    rw [List.foldl_cons, ih hes, find?_insert, find?_cons]
    by_cases hk : e.1 = k
    · rw [if_pos hk, if_pos hk.symm, find?_eq_none (hk ▸ hfresh)]
      rfl
    · rw [if_neg hk, if_neg (Ne.symm hk)]

/-- An ordered list of entries is a map already. -/
theorem Ascending.ofList_eq (h : Ascending m) : ofList m = m :=
  (ascending_ofList m).ext h (find?_ofList h.nodup)

/-- Changing all values changes what is found. -/
theorem find?_map {β : Type} (f : α → β) (m : KeyMap α) (k : String) :
    find? (m.map fun e ↦ (e.1, f e.2)) k = (m.find? k).map f := by
  simp only [find?, List.find?_map, Option.map_map]
  rfl

/-- The order of its entries does not matter to a map. -/
theorem ofList_eq_of_perm {entries entries' : List (String × α)} (hperm : entries.Perm entries')
    (h : (entries.map Prod.fst).Nodup) : ofList entries = ofList entries' := by
  have h' : (entries'.map Prod.fst).Nodup := ((hperm.map _).nodup_iff).1 h
  refine (ascending_ofList _).ext (ascending_ofList _) fun k ↦ ?_
  rw [find?_ofList h, find?_ofList h']
  refine Option.ext fun v ↦ ?_
  rw [find?_eq_some_iff h, find?_eq_some_iff h', hperm.mem_iff]

end BslLint.KeyMap
