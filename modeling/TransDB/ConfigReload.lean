/-
Reloading the configuration while the server runs.

The watcher thread runs `LoadConfig` on the `g_cfg` all workers read. What they
can read is the configuration after any prefix of its stores. Since the first
stores reset every field to its default, a worker may see neither the old value
nor the new one, and `reload_old_or_new_iff` says exactly when it cannot: the
default is one of the two, for every field.
-/
import TransDB.BlockManagerRuns
import TransDB.Config

set_option autoImplicit false

namespace TransDB

namespace Reload

section

variable (MAX_PATH : ℕ) (file : ConfigFile) (old : ConfigDefines)

/-- `g_cfg` after the first `n` stores of `LoadConfig`. -/
def state (n : ℕ) : ConfigDefines := Assign.run ((LoadConfig MAX_PATH file).take n) old

/-- `g_cfg` after `LoadConfig`. -/
def loaded : ConfigDefines := Assign.run (LoadConfig MAX_PATH file) old

/-- What one `blman_write_record` reads while the reload is going on: `t i` is how
many stores have been made at its `i`-th read, and `d` at its last one. -/
def seen (t : ℕ → ℕ) (d : ℕ) : WriteCfg where
  RecordSizeForCompression := state MAX_PATH file old (t 0) .RecordSizeForCompression
  GzipCompressionLevel := state MAX_PATH file old (t 1) .GzipCompressionLevel
  EnableRecordLimit := state MAX_PATH file old (t 2) .EnableRecordLimit
  RecordLimit i := state MAX_PATH file old (t (3 + i)) .RecordLimit
  DefragAfterRecordDelete := state MAX_PATH file old d .DefragAfterRecordDelete

/-- At every point of the reload each field has its old or its new value. -/
def OldOrNew : Prop :=
  ∀ n f, state MAX_PATH file old n f = old f
    ∨ state MAX_PATH file old n f = loaded MAX_PATH file old f

/-- If the file has `EnableRecordLimit = no` and is what is loaded already, no
write during the reload removes a record of another key. -/
def NeverRemoves : Prop :=
  file.GetBool "Storage" "EnableRecordLimit" = some false → old = loaded MAX_PATH file old →
    ∀ (sh : Shared) (m : Blman) (t : ℕ → ℕ) (d : ℕ) (recordkey : UInt64) (record : List UInt8)
      (st : WriteStatus) (m' : Blman), Blman.Reachable sh m → Monotone t → (∀ i, t i ≤ d) →
      m.writeRecord sh (seen MAX_PATH file old t d) recordkey record = some (st, m') →
      ∀ k, k ≠ recordkey → m.contents k ≠ none → m'.contents k ≠ none

end

variable {MAX_PATH : ℕ} {file : ConfigFile} {old : ConfigDefines}

/-- After the defaults have been stored, nothing else is left. -/
theorem state_defaults : state MAX_PATH file old defaultOrder.length = defaultValues := by
  have htake : (LoadConfig MAX_PATH file).take defaultOrder.length
      = init_config_default_values := List.take_left' (List.length_map _)
  rw [state, htake]
  exact Assign.run_reset mem_defaultOrder _ _

/-- A field has its old value, its default or its new value. -/
theorem state_cases (n : ℕ) (f : CfgField) :
    state MAX_PATH file old n f = old f ∨ state MAX_PATH file old n f = defaultValues f
      ∨ state MAX_PATH file old n f = loaded MAX_PATH file old f := by
  have hloaded : loaded MAX_PATH file old
      = Assign.run (loadAssignments MAX_PATH file) defaultValues := by
    rw [loaded, LoadConfig, Assign.run_append]
    exact congrArg _ (Assign.run_reset mem_defaultOrder _ _)
  by_cases hn : n ≤ defaultOrder.length
  · have htake : (LoadConfig MAX_PATH file).take n = init_config_default_values.take n := by
      refine List.take_append_of_le_length ?_
      rw [init_config_default_values, Assign.reset, List.length_map]
      exact hn
    rw [state, htake]
    rcases Assign.run_take_reset defaultOrder defaultValues old n f with h | h
    · exact Or.inl h
    · exact Or.inr (Or.inl h)
  · obtain ⟨k, rfl⟩ : ∃ k, n = init_config_default_values.length + k := by
      rw [init_config_default_values, Assign.reset, List.length_map]
      exact ⟨n - defaultOrder.length, by omega⟩
    have hstate : state MAX_PATH file old (init_config_default_values.length + k)
        = Assign.run ((loadAssignments MAX_PATH file).take k) defaultValues := by
      rw [state, LoadConfig, List.take_length_add_append, Assign.run_append]
      exact congrArg _ (Assign.run_reset mem_defaultOrder _ _)
    rw [hstate, hloaded]
    exact Or.inr (Assign.run_take (fields_loadAssignments MAX_PATH file) k defaultValues f)

/-- The value of a field after the reload: the one the file gives it, else the
default. -/
theorem loaded_field {s : CfgLoad} (hs : s ∈ loadStatements MAX_PATH) :
    loaded MAX_PATH file old s.field = (s.value file).getD (defaultValues s.field) := by
  have hloaded : loaded MAX_PATH file old
      = Assign.run (loadAssignments MAX_PATH file) defaultValues := by
    rw [loaded, LoadConfig, Assign.run_append]
    exact congrArg _ (Assign.run_reset mem_defaultOrder _ _)
  rw [hloaded]
  rcases hv : s.value file with _ | v
  · refine Assign.run_of_notMem ?_ _
    intro hmem
    obtain ⟨a, ha, hfield⟩ := List.mem_map.mp hmem
    obtain ⟨s', hs', hsome⟩ := List.mem_filterMap.mp ha
    obtain ⟨w, hw, rfl⟩ := Option.map_eq_some_iff.mp hsome
    have hsame : s' = s :=
      List.inj_on_of_nodup_map (fields_loadStatements MAX_PATH) hs' hs hfield
    subst hsame
    rw [hv] at hw
    cases hw
  · have hmem : (⟨s.field, v⟩ : CfgAssign) ∈ loadAssignments MAX_PATH file :=
      List.mem_filterMap.mpr ⟨s, hs, by rw [hv]; rfl⟩
    exact Assign.run_of_mem (fields_loadAssignments MAX_PATH file) hmem _

theorem old_or_new_iff : OldOrNew MAX_PATH file old ↔ ∀ s ∈ loadStatements MAX_PATH,
    defaultValues s.field = old s.field
      ∨ (s.value file).getD (defaultValues s.field) = defaultValues s.field := by
  constructor
  · intro h s hs
    have hf := h defaultOrder.length s.field
    rw [state_defaults, loaded_field hs] at hf
    exact hf.imp_right Eq.symm
  · intro h n f
    rcases state_cases n f with hn | hn | hn
    · exact Or.inl hn
    · obtain ⟨s, hs, rfl⟩ := List.mem_map.mp (mem_loadStatements MAX_PATH f)
      rw [hn, loaded_field hs]
      exact (h s hs).imp_right Eq.symm
    · exact Or.inr hn

theorem loaded_EnableRecordLimit {v : Bool}
    (h : file.GetBool "Storage" "EnableRecordLimit" = some v) :
    loaded MAX_PATH file old .EnableRecordLimit = v := by
  have hs : (⟨.EnableRecordLimit, GET_CONFIG_BOOL_VALUE "Storage" "EnableRecordLimit"⟩ : CfgLoad)
      ∈ loadStatements MAX_PATH := by
    simp only [loadStatements, List.mem_cons, true_or, or_true]
  refine (loaded_field hs).trans ?_
  simp only [GET_CONFIG_BOOL_VALUE, h, Option.getD_some]

/-- A write that does not see the record limit enabled removes no other record. -/
theorem removes_nothing {sh : Shared} {cfg : WriteCfg} {m m' : Blman} {recordkey : UInt64}
    {record : List UInt8} {st : WriteStatus} (h : m.Inv) (hoff : cfg.EnableRecordLimit = false)
    (hw : m.writeRecord sh cfg recordkey record = some (st, m')) (k : UInt64)
    (hk : k ≠ recordkey) : m'.contents k = m.contents k := by
  have hlimit : ∀ index, Blman.limitReached cfg index = false := by
    intro index
    rw [Blman.limitReached, hoff, Bool.false_and]
  have hev : ∀ index, Blman.evictedBy cfg recordkey index = [] := by
    intro index
    rw [Blman.evictedBy, hlimit]
    rfl
  cases Blman.writeRecord_cases h hw with
  | tooBig _ => rfl
  | updated _ _ _ _ hm => rw [hm.contents, Function.update_of_ne hk]
  | refused _ _ _ _ _ _ hold _ _ =>
    rw [Blman.refusedBy, hlimit] at hold
    cases hold
  | stored _ _ _ _ _ _ _ _ _ hcontents _ _ =>
    rw [hcontents, Function.update_of_ne hk, hev, RecordMap.removeKeys_nil,
      Function.update_of_ne hk]

/-- **Reloading is safe exactly for the default values.** The reload shows old and
new values only, and with the limit off removes nothing, if and only if for each
field the default is the old value or the one the file gives. -/
theorem reload_old_or_new_iff (MAX_PATH : ℕ) (file : ConfigFile) (old : ConfigDefines) :
    OldOrNew MAX_PATH file old ∧ NeverRemoves MAX_PATH file old ↔ ∀ s ∈ loadStatements MAX_PATH,
      defaultValues s.field = old s.field
        ∨ (s.value file).getD (defaultValues s.field) = defaultValues s.field := by
  rw [← old_or_new_iff]
  refine ⟨fun h => h.1, fun h => ⟨h, ?_⟩⟩
  intro hoff hsame sh m t d recordkey record st m' hm _ _ hw k hk hmem
  have hfinal : loaded MAX_PATH file old .EnableRecordLimit = false :=
    loaded_EnableRecordLimit hoff
  have hseen : (seen MAX_PATH file old t d).EnableRecordLimit = false := by
    rcases h (t 2) .EnableRecordLimit with hs | hs
    · exact hs.trans ((congrFun hsame _).trans hfinal)
    · exact hs.trans hfinal
  rw [removes_nothing hm.inv.1 hseen hw k hk]
  exact hmem

/-! ## A file that shows it

`EnableRecordLimit = no`, `RecordLimit = 1` and no other key of interest, loaded
and loaded again. After the fifth store of the second reload the limit is
enabled by its default and still 1. -/

/-- A file that defines every key. -/
def sampleFile : ConfigFile where
  GetBool _ _ := some false
  GetInt _ key := if key = "RecordLimit" then some 1 else some 64
  GetString _ _ := some "data"

/-- What is loaded from it. -/
def sampleConfig : ConfigDefines := loaded 260 sampleFile defaultValues

/-- A manager that holds key 1 and nothing else. -/
theorem exists_single : ∃ m, Blman.Reachable Shared.plain m ∧ m.blockCount < 65534
    ∧ ∀ k, m.contents k ≠ none ↔ k = 1 := by
  obtain ⟨m0, h0, hinv0, hc0⟩ := Blman.create_none
  have hcount0 : m0.blockCount = 1 := by
    rw [← Option.some.inj (Eq.trans rfl h0)]
    rfl
  have hr0 : Blman.Reachable Shared.plain m0 := .create m0 h0
  have hoff : Blman.LimitOk ⟨256, 5, false, fun _ => 1000, 5⟩ := Or.inl rfl
  obtain ⟨st, m1, hw, -⟩ := hr0.write_returns hoff 1 [0]
  have hnew : (1 : UInt64) ∉ m0.blockIndex := by
    rw [← hinv0.contents_eq_none, hc0]
  have hrest : ∀ k, k ≠ 1 → m1.contents k = none := by
    intro k hk
    rw [removes_nothing hinv0 rfl hw k hk, hc0]
  cases Blman.writeRecord_cases hinv0 hw with
  | tooBig hsize => exact absurd hsize (by decide)
  | updated _ _ hkey _ _ => exact absurd hkey hnew
  | refused _ _ _ _ _ _ hold _ _ => cases hold
  | stored _ _ _ _ _ _ _ _ _ hcontents _ hcount =>
    have hlt : m1.blockCount < 65534 := by
      rw [hcount, hcount0]
      split <;> omega
    refine ⟨m1, .write m0 m1 _ 1 [0] st hr0 hoff hw (by omega), hlt, fun k => ?_⟩
    by_cases hk : k = 1
    · subst hk
      rw [hcontents, Function.update_self]
      simp only [ne_eq, reduceCtorEq, not_false_eq_true]
    · rw [hrest k hk]
      simp only [ne_eq, not_true_eq_false, hk]

/-- After the fifth store the limit is enabled, and it is 1. -/
theorem seen_sample : seen 260 sampleFile sampleConfig (fun _ => 5) 5
    = ⟨64, 64, true, fun _ => 1, 64⟩ := by
  have h : ∀ f : CfgField, f ∉ [CfgField.ActivityID, .DataFilePath, .IndexFilePath, .DataFileName,
      .EnableRecordLimit] → state 260 sampleFile sampleConfig 5 f = sampleConfig f := by
    intro f hf
    exact Assign.run_of_notMem hf sampleConfig
  rw [seen, WriteCfg.mk.injEq]
  refine ⟨?_, ?_, rfl, ?_, ?_⟩
  · rw [h .RecordSizeForCompression (by decide)]
    decide
  · rw [h .GzipCompressionLevel (by decide)]
    decide
  · funext i
    rw [h .RecordLimit (by decide)]
    decide
  · rw [h .DefragAfterRecordDelete (by decide)]
    decide

/-- While the sample file is loaded a value is visible that is neither old nor new, and a
write of key 2 removes the record of key 1. -/
theorem reload_shows_default : ¬ OldOrNew 260 sampleFile sampleConfig
    ∧ ¬ NeverRemoves 260 sampleFile sampleConfig := by
  constructor
  · rw [old_or_new_iff]
    intro h
    have hs : (⟨.EnableRecordLimit, GET_CONFIG_BOOL_VALUE "Storage" "EnableRecordLimit"⟩ :
        CfgLoad) ∈ loadStatements 260 := by
      simp only [loadStatements, List.mem_cons, true_or, or_true]
    exact absurd (h _ hs) (by decide)
  · intro hnever
    obtain ⟨m, hm, hcount, hc⟩ := exists_single
    have hinv := hm.inv.1
    have hmem : ∀ k, k ∈ m.blockIndex ↔ k = 1 := fun k => hinv.contents_ne_none.symm.trans (hc k)
    have hidx : m.indexAfterUpdate 2 = m.blockIndex :=
      AvlTable.erase_of_notMem (fun h => absurd ((hmem 2).mp h) (by decide))
    have horder : m.blockIndex.inOrder = [1] := by
      refine List.perm_singleton.mp ((List.perm_ext_iff_of_nodup
        (AvlTable.inOrder_nodup _) (List.nodup_singleton _)).mpr fun k => ?_)
      rw [AvlTable.mem_inOrder, hmem, List.mem_singleton]
    have hone : m.blockIndex.count = 1 := by
      rw [← AvlTable.length_inOrder, horder]
      rfl
    have hsame : sampleConfig = loaded 260 sampleFile sampleConfig := by
      rw [loaded, LoadConfig, Assign.run_append, init_config_default_values,
        Assign.run_reset mem_defaultOrder, sampleConfig, loaded, LoadConfig, Assign.run_append,
        init_config_default_values, Assign.run_reset mem_defaultOrder]
    rcases Blman.writeRecord_spec m Shared.plain (seen 260 sampleFile sampleConfig (fun _ => 5) 5)
        2 [0] hinv with ⟨st, m', hw, hwrote⟩ | ⟨-, ⟨-, j, hj⟩ | hwrap⟩
    · have hkeep := hnever rfl hsame Shared.plain m (fun _ => 5) 5 2 [0] st m' hm
        (fun _ _ _ => Nat.le_refl 5) (fun _ => Nat.le_refl 5) hw 1 (by decide) ((hc 1).mpr rfl)
      have hlimit : Blman.limitReached ⟨64, 64, true, fun _ => 1, 64⟩ m.blockIndex = true := by
        rw [Blman.limitReached, hone]
        decide
      rw [seen_sample] at hwrote
      cases hwrote with
      | tooBig hsize => exact absurd hsize (by decide)
      | updated _ _ hkey _ _ => exact absurd ((hmem 2).mp hkey) (by decide)
      | refused _ _ _ _ _ _ hold _ _ =>
        rw [hidx, Blman.refusedBy, hlimit, horder] at hold
        exact absurd hold (by decide)
      | stored _ _ _ _ _ _ _ _ _ hcontents _ _ =>
        apply hkeep
        rw [hcontents, hidx, Function.update_of_ne (by decide), Blman.evictedBy, hlimit, horder]
        rfl
    · rw [seen_sample] at hj
      have hone' : Blman.countReaches 0 1 = true := hj
      exact absurd hone' (by decide)
    · omega

end Reload

end TransDB
