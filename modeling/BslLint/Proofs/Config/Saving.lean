import BslLint.Config.Format
import BslLint.Config.ToToml
import BslLint.Proofs.Data.Attempts
import BslLint.Proofs.Data.Toml.Documents

/-!
# Saved configurations are read back

A configuration leaves out of its document what is absent, and what is missing in a document is
filled in when it is read. Both agree: from the table that was written, sorted as the format keeps
it, the same configuration is understood (`Config.IsRegular.decode?_sorted_toEntries`). It does not
matter how the table is written, as long as it is kept (`Toml.IsKept`), and not in which order the
rules and their parameters are listed in it (`Config.Relists`): they are kept in tables without an
order, and sorting forgets the one they were found in.
-/

namespace BslLint

namespace Toml

/-- What is written of a table is read as this table, its entries in the order of their keys. -/
def IsKept (entries : List (String × Toml)) : Prop :=
  read? (document entries) = some (sorted (.table entries))

/-! ### Records -/

/-- In a record a member is found if it has a value; one that is absent is as good as not listed. -/
theorem find?_record {fields : List (String × Option Toml)} (h : (fields.map Prod.fst).Nodup)
    (k : String) :
    KeyMap.find? (fields.filterMap fun e ↦ e.2.map fun v ↦ (e.1, v)) k =
      (KeyMap.find? fields k).join := by
  induction fields with
  | nil => rfl
  | cons e es ih =>
    obtain ⟨name, v⟩ := e
    obtain ⟨hfresh, hes⟩ := List.nodup_cons.1 h
    have hrest := ih hes
    rw [KeyMap.find?_cons, List.filterMap_cons]
    by_cases hk : name = k
    · subst hk
      have hnone := KeyMap.find?_eq_none hfresh
      cases v <;> simp [hrest, hnone, KeyMap.find?_cons]
    · cases v <;> simp [hrest, hk, KeyMap.find?_cons]

/-- Leaving out what is absent makes no name come twice. -/
theorem nodup_record {fields : List (String × Option Toml)} (h : (fields.map Prod.fst).Nodup) :
    ((fields.filterMap fun e ↦ e.2.map fun v ↦ (e.1, v)).map Prod.fst).Nodup := by
  refine h.sublist ?_
  clear h
  induction fields with
  | nil => exact .slnil
  | cons e es ih =>
    obtain ⟨name, _ | v⟩ := e
    · exact ih.cons _
    · exact ih.cons_cons _

/-- In the sorted form of a table an entry is found as it was in the table. -/
theorem exists_sorted_table (es : List (String × Toml)) (h : (es.map Prod.fst).Nodup) :
    ∃ m, sorted (.table es) = .table m ∧
      ∀ k, KeyMap.find? m k = (KeyMap.find? es k).map sorted := by
  refine ⟨_, by rw [sorted], fun k ↦ ?_⟩
  rw [sortedEntries_eq_map, KeyMap.find?_ofList, KeyMap.find?_map]
  rw [List.map_map]
  exact h

/-- In the sorted form of a record a member is found if it has a value. -/
theorem exists_sorted_record (fields : List (String × Option Toml))
    (h : (fields.map Prod.fst).Nodup) :
    ∃ m, sorted (record fields) = .table m ∧
      ∀ k, KeyMap.find? m k = (KeyMap.find? fields k).join.map sorted := by
  obtain ⟨m, hm, hfind⟩ := exists_sorted_table _ (nodup_record h)
  exact ⟨m, hm, fun k ↦ by rw [hfind, find?_record h]⟩

/-- A record can be written if its members have different names and their values can be written. -/
theorem isProper_record {fields : List (String × Option Toml)} (hkeys : (fields.map Prod.fst).Nodup)
    (h : ∀ e ∈ fields, ∀ v ∈ e.2, IsProper v) : (record fields).IsProper := by
  refine .table (nodup_record hkeys) fun e he ↦ ?_
  obtain ⟨field, hfield, hvalue⟩ := List.mem_filterMap.1 he
  obtain ⟨v, hv, rfl⟩ := Option.map_eq_some_iff.1 hvalue
  exact h field hfield v hv

theorem isProper_strs (ss : List String) : (Toml.array (ss.map .str)).IsProper :=
  .array (List.forall_mem_map.2 fun _ _ ↦ .str)

/-- A record is one level deeper than what is in it. -/
theorem depth_record_le {fields : List (String × Option Toml)} {n : ℕ}
    (h : ∀ e ∈ fields, ∀ v ∈ e.2, depth v ≤ n) : depth (record fields) ≤ n + 1 := by
  rw [record, depth]
  refine Nat.succ_le_succ (depthEntries_le_iff.2 fun e he ↦ ?_)
  obtain ⟨field, hfield, hvalue⟩ := List.mem_filterMap.1 he
  obtain ⟨v, hv, rfl⟩ := Option.map_eq_some_iff.1 hvalue
  exact h field hfield v hv

theorem depth_strs_le (ss : List String) : depth (.array (ss.map .str)) ≤ 1 := by
  rw [depth]
  refine Nat.succ_le_succ (depthItems_le_iff.2 (List.forall_mem_map.2 fun s _ ↦ ?_))
  simp [depth]

/-! ### How values are understood -/

section

variable {α : Type}

@[simp]
theorem fields?_reading (names : List String) (m : KeyMap Toml) :
    reading.fields? names (.table m) = some m := rfl

@[simp]
theorem bool?_reading (b : Bool) : reading.bool? (.bool b) = some b := rfl

@[simp]
theorem text?_reading (s : String) : reading.text? (.str s) = some s := rfl

@[simp]
theorem choice?_reading (s : String) : reading.choice? (.str s) = some s := rfl

@[simp]
theorem size?_reading (n : Nat) : reading.size? (.int n) = some n := by
  show (if (n : Int) < 0 then none else some (n : Int).toNat) = some n
  rw [if_neg (Int.not_lt.2 (Int.natCast_nonneg n)), Int.toNat_natCast]

@[simp]
theorem optional?_reading (decode? : Toml → Option α) (v : Toml) :
    reading.optional? decode? v = (decode? v).map some := rfl

@[simp]
theorem list?_reading (ss : List String) :
    reading.list? reading.text? (.array (ss.map .str)) = some ss := by
  show (ss.map Toml.str).mapM str? = some ss
  rw [List.mapM_map]
  exact (mapM_eq_some_map fun _ _ ↦ rfl).trans (congrArg some (List.map_id' ss))

/-- A map is read as it was written, if its values are. -/
theorem map?_reading {m : KeyMap α} (hkeys : KeyMap.Ascending m) (write : α → Toml)
    {decode? : Toml → Option α} (h : ∀ e ∈ m, decode? (write e.2) = some e.2) :
    reading.map? decode? (.table (m.map fun e ↦ (e.1, write e.2))) = some m := by
  have hmap : (m.map fun e ↦ (e.1, write e.2)).mapM
      (fun e ↦ (decode? e.2).map fun w ↦ (e.1, w)) = some (m.map fun e ↦ e) := by
    rw [List.mapM_map]
    exact mapM_eq_some_map fun e he ↦ by rw [Function.comp_apply, h e he, Option.map_some]
  show (do return KeyMap.ofList (← (m.map fun e ↦ (e.1, write e.2)).mapM _)) = some m
  rw [hmap, List.map_id']
  exact congrArg some hkeys.ofList_eq

end

end Toml

/-- A field is read as its entry says, or is the default where there is no entry. -/
@[simp]
theorem Reading.field?_eq {α β : Type} (m : KeyMap α) (name : String) (default : β)
    (decode? : α → Option β) :
    field? m name default decode? = match m.find? name with
      | some v => decode? v
      | none => some default := by
  rw [field?, KeyMap.find?]
  cases List.find? (·.1 == name) m <;> rfl

/-- A map is the same as itself if its values are. -/
theorem KeyMap.same_self {α : Type} {sameValue : α → α → Bool} {m : KeyMap α}
    (h : ∀ e ∈ m, sameValue e.2 e.2 = true) : KeyMap.same sameValue m m = true := by
  induction m with
  | nil => rfl
  | cons e m ih =>
    obtain ⟨he, hm⟩ := List.forall_mem_cons.1 h
    rw [KeyMap.same, he, ih hm, beq_self_eq_true]
    rfl

/-! ### Settings -/

open Toml in
/-- What is said about a rule is read as it was written, whatever of it is absent. -/
theorem RuleSettings.decode?_sorted_toToml {s : RuleSettings}
    (h : (Toml.table s.parameters).IsRegular) :
    decode? Toml.reading (sorted s.toToml) = some s := by
  obtain ⟨m, hm, hfind⟩ := exists_sorted_record [("enabled", some (.bool s.enabled)),
    ("severity", s.severity.map fun v ↦ .str v.label),
    ("description", s.description.map .str),
    ("parameters", some (.table s.parameters))] (by simp)
  rw [toToml, hm]
  have hparameters : reading.map? reading.value? (.table s.parameters) = some s.parameters := by
    cases h with
    | table hkeys _ =>
      have hmap := map?_reading hkeys id fun _ _ ↦ (rfl : some _ = some _)
      rwa [List.map_id''] at hmap
      exact fun _ ↦ rfl
  obtain ⟨enabled, severity, description, parameters⟩ := s
  cases severity <;> cases description <;>
    simp_all [decode?, Reading.field?_eq, KeyMap.find?_cons, h.sorted_eq, Severity.ofLabel?_label]

open Toml in
theorem FingerprintSettings.decode?_sorted_toToml (s : FingerprintSettings) :
    decode? Toml.reading (sorted s.toToml) = some s := by
  obtain ⟨m, hm, hfind⟩ := exists_sorted_record [("enabled", some (.bool s.enabled)),
    ("codes", some (.array (s.codes.map .str)))] (by simp)
  rw [toToml, hm]
  simp [decode?, hfind, KeyMap.find?_cons]

open Toml in
theorem BatchSettings.decode?_sorted_toToml (s : BatchSettings) :
    decode? Toml.reading (sorted s.toToml) = some s := by
  obtain ⟨m, hm, hfind⟩ := exists_sorted_record [("threads", s.threads.map fun n ↦ .int n),
    ("fail_fast", some (.bool s.failFast)),
    ("extensions", some (.array (s.extensions.map .str))),
    ("templates", some (.bool s.templates))] (by simp)
  rw [toToml, hm]
  obtain ⟨threads, failFast, extensions, templates⟩ := s
  cases threads <;> simp_all [decode?, KeyMap.find?_cons]

/-! ### Configurations -/

namespace Config

variable {c : Config}

/-- What is said is about something else each time, and can be said in the format. -/
structure IsRegular (c : Config) : Prop where
  codes : KeyMap.Ascending c.rules
  parameters : ∀ e ∈ c.rules, (Toml.table e.2.parameters).IsRegular
  threads : ∀ n ∈ c.settings.threads, n < 2 ^ 63

/-- A number of threads is kept as a signed number of 64 bits. -/
theorem fitsInt64_of_lt {n : ℕ} (h : n < 2 ^ 63) : Text.fitsInt64 n = true := by
  simp only [Text.fitsInt64, Bool.and_eq_true, decide_eq_true_eq]
  exact ⟨by omega, by exact_mod_cast h⟩

/-- A regular configuration has a number of threads that can be written. -/
theorem IsRegular.isSavable (h : c.IsRegular) : c.isSavable = true := by
  rw [Config.isSavable]
  split
  next n hn => exact fitsInt64_of_lt (h.threads n hn)
  next => rfl

/-- A regular configuration is the same as itself. -/
theorem IsRegular.same_self (h : c.IsRegular) : c.same c = true := by
  have hrules : KeyMap.same RuleSettings.same c.rules c.rules = true := by
    refine KeyMap.same_self fun e he ↦ ?_
    have hparameters : KeyMap.same Toml.same e.2.parameters e.2.parameters = true := by
      cases h.parameters e he with
      | table _ hvalues => exact KeyMap.same_self fun p hp ↦ (hvalues p hp).same_self
    simp [RuleSettings.same, hparameters]
  simp [same, hrules]

open Toml in
/-- A configuration is understood as it was meant. -/
theorem IsRegular.decode?_sorted_toEntries (h : c.IsRegular) :
    decode? Toml.reading (sorted (.table c.toEntries)) = some c := by
  have hrules : reading.map? (RuleSettings.decode? reading)
      (sorted (.table (c.rules.map fun e ↦ (e.1, e.2.toToml)))) = some c.rules := by
    rw [sorted, sortedEntries_eq_map, List.map_map, KeyMap.Ascending.ofList_eq]
    · exact map?_reading h.codes (fun s ↦ sorted s.toToml) fun e he ↦
        RuleSettings.decode?_sorted_toToml (h.parameters e he)
    · exact List.pairwise_map.2 h.codes
  obtain ⟨m, hm, hfind⟩ := exists_sorted_table c.toEntries (by simp [toEntries])
  rw [hm]
  simp [decode?, hfind, toEntries, KeyMap.find?_cons, hrules,
    FingerprintSettings.decode?_sorted_toToml, BatchSettings.decode?_sorted_toToml]

open Toml in
/-- What is said about something else each time can be written, in whatever order. -/
theorem isProper_toEntries (hcodes : (c.rules.map Prod.fst).Nodup)
    (hparameters : ∀ e ∈ c.rules, (Toml.table e.2.parameters).IsProper)
    (hthreads : ∀ n ∈ c.settings.threads, n < 2 ^ 63) : (Toml.table c.toEntries).IsProper := by
  have hrule : ∀ e ∈ c.rules, e.2.toToml.IsProper := by
    intro e he
    refine isProper_record (by simp) ?_
    simp only [List.forall_mem_cons, Option.forall_mem_map, Option.mem_some_iff, forall_eq']
    exact ⟨.bool, fun _ _ ↦ .str, fun _ _ ↦ .str, hparameters e he, nofun⟩
  have hrules : (Toml.table (c.rules.map fun e ↦ (e.1, e.2.toToml))).IsProper := by
    refine .table ?_ (List.forall_mem_map.2 hrule)
    rw [List.map_map]
    exact hcodes
  have hfingerprint : c.fingerprint.toToml.IsProper := by
    refine isProper_record (by simp) ?_
    simp only [List.forall_mem_cons, Option.mem_some_iff, forall_eq']
    exact ⟨.bool, isProper_strs _, nofun⟩
  have hsettings : c.settings.toToml.IsProper := by
    refine isProper_record (by simp) ?_
    simp only [List.forall_mem_cons, Option.forall_mem_map, Option.mem_some_iff, forall_eq']
    refine ⟨fun n hn ↦ .int ?_, .bool, isProper_strs _, .bool, nofun⟩
    -- A count of threads fits, unlike other numbers of the machine, only by hypothesis.
    obtain ⟨count, hcount, hcast⟩ := Option.bind_eq_some_iff.1 hn
    obtain rfl := Option.some.inj hcast
    exact fitsInt64_of_lt (hthreads count hcount)
  refine .table (by simp [toEntries]) ?_
  simp only [toEntries, List.forall_mem_cons]
  exact ⟨.str, hrules, hfingerprint, hsettings, nofun⟩

open Toml in
/-- A configuration is three levels deeper than the parameters of its rules, so these may have 77.
-/
theorem depth_toEntries_le (h : ∀ e ∈ c.rules, depth (.table e.2.parameters) ≤ 77) :
    depth (.table c.toEntries) ≤ Reader.maxDepth + 1 := by
  -- The parameters of a rule lie three levels below the configuration, everything else is flatter.
  have hrule : ∀ e ∈ c.rules, depth e.2.toToml ≤ 78 := by
    intro e he
    refine depth_record_le ?_
    simp only [List.forall_mem_cons, Option.forall_mem_map, Option.mem_some_iff, forall_eq']
    exact ⟨by simp [depth], by simp [depth], by simp [depth], h e he, List.forall_mem_nil _⟩
  have hrules : depth (.table (c.rules.map fun e ↦ (e.1, e.2.toToml))) ≤ 79 := by
    rw [depth]
    exact Nat.succ_le_succ (depthEntries_le_iff.2 (List.forall_mem_map.2 hrule))
  have hfingerprint : depth c.fingerprint.toToml ≤ 1 + 1 := by
    refine depth_record_le ?_
    simp only [List.forall_mem_cons, Option.mem_some_iff, forall_eq']
    exact ⟨by simp [depth], depth_strs_le _, List.forall_mem_nil _⟩
  have hsettings : depth c.settings.toToml ≤ 1 + 1 := by
    refine depth_record_le ?_
    simp only [List.forall_mem_cons, Option.forall_mem_map, Option.mem_some_iff, forall_eq']
    exact ⟨by simp [depth], by simp [depth], depth_strs_le _, by simp [depth],
      List.forall_mem_nil _⟩
  rw [depth]
  refine Nat.succ_le_succ (depthEntries_le_iff.2 ?_)
  simp only [toEntries, List.forall_mem_cons]
  exact ⟨by simp [depth], hrules, hfingerprint.trans (by decide), hsettings.trans (by decide),
    List.forall_mem_nil _⟩

/-! ### Other orders -/

/-- The configuration is the same, but with its rules listed in another order, and each with its
parameters in another order. -/
def Relists (c' c : Config) : Prop :=
  c' = { c with rules := c'.rules } ∧
    ∃ order : String → Parameters, (∀ e ∈ c.rules, (order e.1).Perm e.2.parameters) ∧
      c'.rules.Perm (c.rules.map fun e ↦ (e.1, { e.2 with parameters := order e.1 }))

open Toml in
/-- The order in which the entries of a table are listed does not show in its sorted form. -/
theorem sorted_table_eq {es es' : List (String × Toml)} (hperm : es'.Perm es)
    (h : (es.map Prod.fst).Nodup) : sorted (.table es') = sorted (.table es) := by
  rw [sorted, sorted, sortedEntries_eq_map, sortedEntries_eq_map]
  refine congrArg Toml.table (KeyMap.ofList_eq_of_perm (hperm.map _) ?_)
  rw [List.map_map]
  exact (hperm.map Prod.fst).nodup_iff.2 h

namespace Relists

variable {c' : Config} (hc' : c'.Relists c) (hc : c.IsRegular)

include hc' hc

/-- Tables are proper in any order. -/
theorem isProper_parameters : ∀ e ∈ c'.rules, (Toml.table e.2.parameters).IsProper := by
  obtain ⟨-, order, horder, hperm⟩ := hc'
  intro listed hlisted
  obtain ⟨e, he, rfl⟩ := List.mem_map.1 (hperm.mem_iff.1 hlisted)
  cases (hc.parameters e he).isProper with
  | table hkeys hvalues =>
    exact .table (((horder e he).map _).nodup_iff.2 hkeys) fun p hp ↦
      hvalues p ((horder e he).mem_iff.1 hp)

/-- The configuration can be written as it is listed. -/
theorem isProper : (Toml.table c'.toEntries).IsProper := by
  refine isProper_toEntries ?_ (hc'.isProper_parameters hc) ?_
  · obtain ⟨-, order, -, hperm⟩ := hc'
    rw [(hperm.map Prod.fst).nodup_iff, List.map_map]
    exact hc.codes.nodup
  · rw [hc'.1]
    exact hc.threads

open Toml in
/-- However they are listed, the rules have one sorted form. -/
theorem sorted_rules_eq : sorted (.table (c'.rules.map fun e ↦ (e.1, e.2.toToml))) =
    sorted (.table (c.rules.map fun e ↦ (e.1, e.2.toToml))) := by
  obtain ⟨-, order, horder, hperm⟩ := hc'
  -- The entries of a rule keep their places; only its parameters may be listed differently.
  have hsettings : ∀ e ∈ c.rules,
      sorted { e.2 with parameters := order e.1 : RuleSettings }.toToml = sorted e.2.toToml := by
    intro e he
    have hparameters : sorted (.table (order e.1)) = sorted (.table e.2.parameters) := by
      cases hc.parameters e he with
      | table hkeys _ => exact sorted_table_eq (horder e he) hkeys.nodup
    obtain ⟨code, enabled, severity, description, parameters⟩ := e
    simp only [RuleSettings.toToml, record, sorted, sortedEntries_eq_map] at hparameters ⊢
    cases severity <;> cases description <;> simp [sorted, sortedEntries_eq_map, hparameters]
  rw [sorted_table_eq (hperm.map fun e ↦ (e.1, e.2.toToml))]
  · rw [sorted, sorted, sortedEntries_eq_map, sortedEntries_eq_map, List.map_map, List.map_map,
      List.map_map]
    refine congrArg Toml.table (congrArg KeyMap.ofList (List.map_congr_left fun e he ↦ ?_))
    exact congrArg (Prod.mk e.1) (hsettings e he)
  · rw [List.map_map, List.map_map]
    exact hc.codes.nodup

open Toml in
/-- However a configuration is listed, it has one sorted form. -/
theorem sorted_eq : sorted (.table c'.toEntries) = sorted (.table c.toEntries) := by
  have hrules := hc'.sorted_rules_eq hc
  rw [hc'.1]
  simp only [sorted, sortedEntries_eq_map, toEntries, List.map_cons, List.map_nil] at hrules ⊢
  rw [hrules]

/-- The number of threads is the same in any order. -/
theorem isSavable : c'.isSavable = true := by
  rw [hc'.1]
  exact hc.isSavable

omit hc in
open Toml in
/-- Listing parameters in another order does not nest them deeper. -/
theorem depth_le (hdepth : ∀ e ∈ c.rules, depth (.table e.2.parameters) ≤ 77) :
    ∀ e ∈ c'.rules, depth (.table e.2.parameters) ≤ 77 := by
  obtain ⟨-, order, horder, hperm⟩ := hc'
  intro listed hlisted
  obtain ⟨e, he, rfl⟩ := List.mem_map.1 (hperm.mem_iff.1 hlisted)
  have hle := hdepth e he
  rw [depth, Nat.succ_le_succ_iff, depthEntries_le_iff] at hle ⊢
  exact fun p hp ↦ hle p ((horder e he).mem_iff.1 hp)

end Relists

/-- **Saving a configuration keeps it**, in whatever order its rules and their parameters are
listed. -/
theorem saving_keeps_configurations {c' : Config} (h : c.IsRegular) (hc' : c'.Relists c) :
    ∃ text, c'.save? = some text ∧
      (Toml.IsKept c'.toEntries → read? .toml text = some c ∧ c.same c = true) ∧
      ((∀ e ∈ c.rules, Toml.depth (.table e.2.parameters) ≤ 77) → Toml.IsKept c'.toEntries) := by
  refine ⟨Toml.document c'.toEntries, by rw [save?, hc'.isSavable h]; rfl, fun hkept ↦ ?_,
    fun hdepth ↦ ?_⟩
  · refine ⟨?_, h.same_self⟩
    show (do decode? Toml.reading (← Toml.read? (Toml.document c'.toEntries))) = some c
    rw [hkept, hc'.sorted_eq h]
    exact h.decode?_sorted_toEntries
  · exact Toml.read?_document (hc'.isProper h) (depth_toEntries_le (hc'.depth_le hdepth))

/-- A configuration that says something of each kind. -/
def sample : Config where
  rules := [("A", ⟨true, some .hint, none, [("m", .bool true), ("n", .array [.int 1, .table []])]⟩),
    ("B", {})]
  settings := { threads := some 2, extensions := [] }

/-- The sample with its rules from the last to the first, and so their parameters. -/
def sampleRelisted : Config :=
  { sample with rules := sample.rules.reverse.map fun e ↦
      (e.1, { e.2 with parameters := e.2.parameters.reverse }) }

/-- The sample is written in the other order, and read back in its own. -/
theorem sample_is_kept : sample.IsRegular ∧ sampleRelisted.Relists sample ∧
    ∃ text, sampleRelisted.save? = some text ∧ read? .toml text = some sample := by
  have h : sample.IsRegular := by
    refine ⟨List.pairwise_pair.2 (by decide), List.forall_mem_cons.2 ⟨?_, ?_⟩, by decide⟩
    · refine .table (List.pairwise_pair.2 (by decide)) (List.forall_mem_cons.2 ⟨.bool, ?_⟩)
      exact List.forall_mem_singleton.2 (.array (List.forall_mem_cons.2 ⟨.int rfl,
        List.forall_mem_singleton.2 (.table .nil nofun)⟩))
    · exact List.forall_mem_singleton.2 (.table .nil nofun)
  have hrelists : sampleRelisted.Relists sample := by
    refine ⟨rfl, fun code ↦ ((sample.rules.find? code).map (·.parameters.reverse)).getD [], ?_, ?_⟩
    · exact List.forall_mem_cons.2 ⟨List.reverse_perm _, List.forall_mem_singleton.2 .nil⟩
    · exact .swap ..
  obtain ⟨text, htext, hread, hkept⟩ := saving_keeps_configurations h hrelists
  refine ⟨h, hrelists, text, htext, (hread (hkept (List.forall_mem_cons.2 ⟨?_, ?_⟩))).1⟩
  · simp [Toml.depth, Toml.depthEntries, Toml.depthItems]
  · exact List.forall_mem_singleton.2 (by simp [Toml.depth, Toml.depthEntries])

end Config

end BslLint
