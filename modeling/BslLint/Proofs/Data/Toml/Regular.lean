import BslLint.Data.Toml.Scalar
import BslLint.Proofs.Data.KeyMap

/-!
# Values that documents can hold

A value is regular if it is one that the format has: integers have 64 bits, floats are numbers, days
exist, and tables have their entries in the order of their keys. The entries of a table can be
written in any order; `Toml.sorted` brings them into the one in which they are kept, and a regular
value is in it (`IsRegular.sorted_eq`).
-/

namespace BslLint.Toml

/-! ### Sorting -/

mutual

/-- A value with the entries of all tables in it in the order of their keys. -/
def sorted : Toml → Toml
  | array items => array (sortedItems items)
  | table entries => table (KeyMap.ofList (sortedEntries entries))
  | v => v

/-- The sorted items of an array. -/
def sortedItems : List Toml → List Toml
  | [] => []
  | v :: vs => sorted v :: sortedItems vs

/-- The entries of a table, with values that are sorted. -/
def sortedEntries : List (String × Toml) → List (String × Toml)
  | [] => []
  | (k, v) :: es => (k, sorted v) :: sortedEntries es

end

theorem sortedItems_eq_map (vs : List Toml) : sortedItems vs = vs.map sorted := by
  induction vs with
  | nil => rw [sortedItems, List.map_nil]
  | cons v vs ih => rw [sortedItems, ih, List.map_cons]

theorem sortedEntries_eq_map (es : List (String × Toml)) :
    sortedEntries es = es.map fun e ↦ (e.1, sorted e.2) := by
  induction es with
  | nil => rw [sortedEntries, List.map_nil]
  | cons e es ih => rw [sortedEntries, ih, List.map_cons]

/-- Outside of tables there is nothing to sort. -/
@[simp]
theorem sorted_str (s : String) : sorted (.str s) = .str s := by
  simp [sorted]

@[simp]
theorem sorted_bool (b : Bool) : sorted (.bool b) = .bool b := by
  simp [sorted]

@[simp]
theorem sorted_int (n : Int) : sorted (.int n) = .int n := by
  simp [sorted]

/-- Neither is there in an array of strings. -/
@[simp]
theorem sorted_strs (ss : List String) : sorted (.array (ss.map .str)) = .array (ss.map .str) := by
  simp [sorted, sortedItems_eq_map, Function.comp_def]

@[simp]
theorem sorted_float (x : Float) : sorted (.float x) = .float x := by
  simp [sorted]

@[simp]
theorem sorted_datetime (d : Datetime) : sorted (.datetime d) = .datetime d := by
  simp [sorted]

/-! ### Regular values -/

/-- A day of the calendar. -/
structure Date.IsRegular (d : Date) : Prop where
  year : d.year < 10000
  month : 0 < d.month ∧ d.month ≤ 12
  day : 0 < d.day ∧ d.day ≤ daysInMonth d.year d.month

/-- A time of day. A minute may have a second more. -/
structure Time.IsRegular (t : Time) : Prop where
  hour : t.hour < 24
  minute : t.minute < 60
  second : t.second ≤ 60
  nanosecond : t.nanosecond < 10 ^ 9

/-- An offset of less than a day. -/
def Offset.IsRegular : Offset → Prop
  | utc => True
  | minutes n => n.natAbs < 24 * 60

/-- A date, a time, or both, and then there may be an offset. -/
inductive Datetime.IsRegular : Datetime → Prop
  | date {d : Date} (hd : d.IsRegular) : IsRegular ⟨some d, none, none⟩
  | time {t : Time} (ht : t.IsRegular) : IsRegular ⟨none, some t, none⟩
  | both {d : Date} {t : Time} {o : Option Offset} (hd : d.IsRegular) (ht : t.IsRegular)
    (ho : ∀ x ∈ o, x.IsRegular) : IsRegular ⟨some d, some t, o⟩

/-- A value of the format. -/
inductive IsRegular : Toml → Prop
  | str {s : String} : IsRegular (.str s)
  | int {n : Int} (h : Text.fitsInt64 n = true) : IsRegular (.int n)
  | float {x : Float} (h : x.isNaN = false) : IsRegular (.float x)
  | bool {b : Bool} : IsRegular (.bool b)
  | datetime {d : Datetime} (h : d.IsRegular) : IsRegular (.datetime d)
  | array {items : List Toml} (h : ∀ v ∈ items, IsRegular v) : IsRegular (.array items)
  | table {entries : List (String × Toml)} (hkeys : KeyMap.Ascending entries)
    (h : ∀ e ∈ entries, IsRegular e.2) : IsRegular (.table entries)

/-- The entries of a regular value are in order already. -/
theorem IsRegular.sorted_eq {v : Toml} (h : v.IsRegular) : sorted v = v := by
  induction h with
  | array _ ih => rw [sorted, sortedItems_eq_map, List.map_congr_left ih, List.map_id']
  | @table entries hkeys _ ih =>
    have hentries : entries.map (fun e ↦ (e.1, sorted e.2)) = entries.map fun e ↦ e :=
      List.map_congr_left fun e he ↦ congrArg (Prod.mk e.1) (ih e he)
    rw [sorted, sortedEntries_eq_map, hentries, List.map_id', hkeys.ofList_eq]
  | _ => rw [sorted] <;> exact fun _ ↦ nofun

/-! ### Sameness -/

/-- A float that is a number is the same as itself. -/
theorem float_beq_self {x : Float} (h : x.isNaN = false) : (x == x) = true := by
  show (x.toModel.unpack.compare x.toModel.unpack == some .eq) = true
  have hnan : x.toModel.unpack.isNaN = false := h
  revert hnan
  cases x.toModel.unpack with
  | notANumber => exact nofun
  | infinity s => cases s <;> exact fun _ ↦ rfl
  | zero s => exact fun _ ↦ rfl
  | finite s m e hm =>
    intro _
    have hcompare : (compare e e).then (compare m m) = .eq := by simp
    cases s with
    | positive => exact congrArg (fun o ↦ some o == some .eq) hcompare
    | negative => exact congrArg (fun o : Ordering ↦ some o.swap == some .eq) hcompare

/-- Items are the same as themselves if each is, -/
theorem sameItems_self {vs : List Toml} (h : ∀ v ∈ vs, same v v = true) :
    sameItems vs vs = true := by
  induction vs with
  | nil => rw [sameItems]
  | cons v vs ih =>
    obtain ⟨hv, hvs⟩ := List.forall_mem_cons.1 h
    rw [sameItems, hv, ih hvs]
    rfl

/-- and entries as well. -/
theorem sameEntries_self {es : List (String × Toml)} (h : ∀ e ∈ es, same e.2 e.2 = true) :
    sameEntries es es = true := by
  induction es with
  | nil => rw [sameEntries]
  | cons e es ih =>
    obtain ⟨he, hes⟩ := List.forall_mem_cons.1 h
    rw [sameEntries, he, ih hes, beq_self_eq_true]
    rfl

/-- **A regular value is the same as itself**, because nothing in it is no number. -/
theorem IsRegular.same_self {v : Toml} (h : v.IsRegular) : same v v = true := by
  induction h with
  | float h => rw [same, float_beq_self h]
  | array _ ih => rw [same, sameItems_self ih]
  | table _ _ ih => rw [same, sameEntries_self ih]
  | _ => simp [same]

end BslLint.Toml
