/-
What a reader is given of a block manager.

`view` is the map of a manager with each record as it is read. A read of the manager, a
write that returns, a delete, and a defragmentation that loses nothing are steps of
`RecordStore` on it.
-/
import TransDB.RecordStore

set_option autoImplicit false

namespace TransDB

open ByteList RecordStore

/-- The records as they are read. -/
def RecordMap.view (sh : Shared) (f : RecordMap) : RecordMap := fun k => (f k).map (expand sh)

namespace RecordMap

variable {sh : Shared} {f : RecordMap}

theorem view_eq_none {k : UInt64} : view sh f k = none ↔ f k = none := Option.map_eq_none_iff

theorem view_update (f : RecordMap) (y : UInt64) (o : Option (List UInt8)) :
    view sh (Function.update f y o) = Function.update (view sh f) y (o.map (expand sh)) := by
  funext k
  by_cases hk : k = y
  · subst hk
    rw [view, Function.update_self, Function.update_self]
  · rw [view, Function.update_of_ne hk, Function.update_of_ne hk, view]

theorem view_removeKeys (f : RecordMap) (ks : List UInt64) :
    view sh (removeKeys f ks) = removeKeys (view sh f) ks := by
  funext k
  rw [view, removeKeys, removeKeys, view]
  by_cases hk : k ∈ ks
  · rw [if_pos hk, if_pos hk]
    rfl
  · rw [if_neg hk, if_neg hk]

end RecordMap

/-- A record is read as it is, or as what it decompresses to. -/
theorem kept_compressRecord {sh : Shared} (hz : GzipOk sh) (cfg : WriteCfg) (record : List UInt8) :
    Kept sh.decompressGzip record (expand sh (Blman.compressRecord sh cfg record)) := by
  by_cases hraw : StoredRaw sh cfg record
  · rw [compressRecord_raw hraw, expand]
    cases hdec : sh.decompressGzip record with
    | none => exact Or.inl rfl
    | some out => exact Or.inr hdec
  · exact Or.inl (expand_compressed hz hraw)

/-! ## The record limit -/

namespace Blman

theorem evictedBy_prefix (cfg : WriteCfg) (recordkey : UInt64) (index : AvlTable) :
    evictedBy cfg recordkey index <+: index.inOrder := by
  rw [evictedBy]
  split
  · exact evicted_prefix _ _ _ _
  · exact List.nil_prefix

theorem evicted_older {limit : ℕ → Int} {recordkey : UInt64} {ks : List UInt64} :
    ∀ {i : ℕ} {k : UInt64}, k ∈ evicted limit recordkey i ks → ¬ recordkey < k := by
  induction ks with
  | nil =>
    intro i k hk
    cases hk
  | cons j ks ih =>
    intro i k hk
    rw [evicted] at hk
    split at hk
    case isTrue hc =>
      rcases List.mem_cons.mp hk with rfl | hk
      · exact hc.2
      · exact ih hk
    case isFalse => cases hk

/-- The loop refuses the record because of a newer one, which it leaves. -/
theorem refusedOld_newer {limit : ℕ → Int} {recordkey : UInt64} {ks : List UInt64}
    (hnodup : ks.Nodup) : ∀ {i : ℕ}, refusedOld limit recordkey i ks = true →
      ∃ k ∈ ks, k ∉ evicted limit recordkey i ks ∧ recordkey < k := by
  induction ks with
  | nil =>
    intro i h
    cases h
  | cons j ks ih =>
    intro i h
    rw [refusedOld, Bool.and_eq_true, Bool.or_eq_true, decide_eq_true_eq] at h
    obtain ⟨hc, hj | hr⟩ := h
    · refine ⟨j, List.mem_cons_self, ?_, hj⟩
      rw [evicted, if_neg fun hh => hh.2 hj]
      exact List.not_mem_nil
    · obtain ⟨k, hk, hnot, hlt⟩ := ih (List.nodup_cons.mp hnodup).2 hr
      refine ⟨k, List.mem_cons_of_mem _ hk, fun hmem => ?_, hlt⟩
      rw [evicted] at hmem
      split at hmem
      case isTrue =>
        rcases List.mem_cons.mp hmem with rfl | hmem
        · exact (List.nodup_cons.mp hnodup).1 hk
        · exact hnot hmem
      case isFalse => cases hmem

variable {sh : Shared} {m m' : Blman} {cfg : WriteCfg} {recordkey : UInt64}

theorem Inv.mem_view_iff (sh : Shared) (h : m.Inv) {k : UInt64} :
    k ∈ m.blockIndex ↔ RecordMap.view sh m.contents k ≠ none := by
  rw [Ne, RecordMap.view_eq_none, ← h.contents_ne_none]

/-- What the record limit removes for a write. -/
theorem Inv.removes (h : m.Inv) (cfg : WriteCfg) (recordkey : UInt64) :
    Removes cfg (RecordMap.view sh m.contents) recordkey
      (evictedBy cfg recordkey (m.indexAfterUpdate recordkey)) := by
  have hpre := evictedBy_prefix cfg recordkey (m.indexAfterUpdate recordkey)
  have hin : ∀ k, k ∈ AvlTable.inOrder (m.indexAfterUpdate recordkey)
      ↔ k ≠ recordkey ∧ RecordMap.view sh m.contents k ≠ none := by
    intro k
    rw [← h.mem_view_iff sh]
    exact AvlTable.mem_inOrder.trans AList.mem_erase
  refine ⟨?_, ?_, ?_, ?_⟩
  · intro hne
    rw [evictedBy, limitReached] at hne
    by_contra hoff
    rw [Bool.eq_false_iff.mpr hoff, Bool.false_and] at hne
    exact hne (if_neg Bool.false_ne_true)
  · intro k hk
    exact ((hin k).mp (hpre.subset hk)).2
  · intro k hk
    have hne := ((hin k).mp (hpre.subset hk)).1
    have hold : ¬ recordkey < k := by
      rw [evictedBy] at hk
      split at hk
      · exact evicted_older hk
      · cases hk
    rw [UInt64.lt_iff_toNat_lt] at hold ⊢
    have hdiff : k.toNat ≠ recordkey.toNat := fun heq => hne (UInt64.toNat_inj.mp heq)
    omega
  · intro k hk j hj hnot hne
    obtain ⟨rest, hrest⟩ := hpre
    have hsorted := AvlTable.inOrder_sorted (m.indexAfterUpdate recordkey)
    rw [← hrest, List.pairwise_append] at hsorted
    refine hsorted.2.2 k hk j ?_
    have hmem := (hin j).mpr ⟨hne, hj⟩
    rw [← hrest, List.mem_append] at hmem
    exact hmem.resolve_left hnot

/-! ## The operations -/

variable {record : List UInt8} {status : WriteStatus}

/-- A single read, into a buffer that may hold something. -/
theorem Inv.readRecord_next (hz : GzipOk sh) (h : m.Inv) {y : UInt64} {pData out : List UInt8}
    (hread : m.readRecord sh y pData = some out) :
    Next sh.decompressGzip (some (RecordMap.view sh m.contents)) (.read y pData (some out))
      (some (RecordMap.view sh m.contents)) := by
  rw [readRecord] at hread
  cases hl : m.blockIndex.lookup y with
  | none =>
    rw [hl] at hread
    cases hread
    have hnone : RecordMap.view sh m.contents y = none := by
      rw [RecordMap.view_eq_none, h.contents_eq_none]
      exact AList.lookup_eq_none.mp hl
    refine .read _ y _ _ (fun _ => rfl) fun v hv => ?_
    rw [hnone] at hv
    cases hv
  | some n =>
    obtain ⟨b, hb, hk⟩ := (h.index y n).mp hl
    obtain ⟨pre, r, post, hrecs, rfl⟩ := Block.exists_split hk
    have hh : b.Holds (pre ++ r :: post) := hrecs ▸ h.valid b (List.mem_of_getElem? hb)
    have hget : b.get r.key = some r.data := by
      rw [hh.get_eq, Record.find_middle hh.nodup]
    have hview : RecordMap.view sh m.contents r.key = some (expand sh r.data) := by
      rw [RecordMap.view, h.contents_eq_some.mpr ⟨n, b, hb, hget⟩, Option.map_some]
    rw [hl] at hread
    have hread' : (m.getBlock n).bind (fun block => block.getRecord sh r.key pData) = some out :=
      hread
    rw [getBlock, hb, Option.bind_some, hh.getRecord_eq] at hread'
    obtain ⟨free, flags, hs⟩ := hh.shape
    obtain ⟨rest, hmem⟩ := hs.drop_data
    rw [hmem, payload_eq_expand hz] at hread'
    refine .read _ r.key pData out (fun hnone => ?_) fun v hv => ?_
    · rw [hview] at hnone
      cases hnone
    · rw [hview] at hv
      cases hv
      split at hread'
      case isFalse =>
        cases hread'
        exact Or.inl rfl
      case isTrue hfail =>
        -- the record looks like a gzip stream and is none
        cases hread'
        have hself : expand sh r.data = r.data := by
          rw [expand, hfail.2]
          rfl
        rw [hself]
        refine Or.inr ⟨rfl, ?_⟩
        by_cases hlen : r.data.length < 2
        · exact Or.inl hlen
        · have hmagic := (hz.magic _).mp hfail.1
          rw [List.take_append_of_le_length (by omega)] at hmagic
          exact Or.inr hmagic

/-- The read of all records. -/
theorem Inv.readRecords_next (hz : GzipOk sh) (h : m.Inv) {pData out : List UInt8}
    (hread : m.readRecords sh pData = some out) :
    Next sh.decompressGzip (some (RecordMap.view sh m.contents)) (.readAll pData (some out))
      (some (RecordMap.view sh m.contents)) := by
  rw [readRecords, getRecords_fold hz m.blocks h.valid] at hread
  split at hread
  case isFalse => cases hread
  case isTrue =>
    cases hread
    have hes : (m.blocks.flatMap Block.records).flatMap
        (fun r => Record.entry ⟨r.key, expand sh r.data⟩)
        = (m.expanded sh).flatMap Record.entry := by
      rw [expanded, List.flatMap_map]
      rfl
    rw [hes]
    refine .readAll _ pData (m.expanded sh) ?_ fun e => ?_
    · rw [keys_expanded]
      exact h.allKeys_nodup
    · rw [expanded, List.mem_map, RecordMap.view, Option.map_eq_some_iff]
      constructor
      · rintro ⟨r, hr, rfl⟩
        exact ⟨r.data, h.mem_allRecords.mp hr, rfl⟩
      · rintro ⟨d, hd, hexp⟩
        refine ⟨⟨e.key, d⟩, h.mem_allRecords.mpr hd, ?_⟩
        rw [hexp]

/-- The list of the keys. -/
theorem Inv.getAllRecordKeys_next (h : m.Inv) :
    Next sh.decompressGzip (some (RecordMap.view sh m.contents)) (.keys (some m.getAllRecordKeys))
      (some (RecordMap.view sh m.contents)) := by
  refine .keys _ _ ⟨m.blockIndex.inOrder_nodup, fun y => ?_, m.blockIndex.inOrder_sorted⟩
  rw [← h.mem_view_iff sh]
  exact AvlTable.mem_inOrder

/-- A write, on a manager whose X the client sees as `o`. -/
theorem Wrote.next (hz : GzipOk sh) (h : m.Inv)
    (hw : m.Wrote sh cfg recordkey record status m') {o : Option RecordMap}
    (ho : o.getD noRecords = RecordMap.view sh m.contents) :
    Next sh.decompressGzip o (.write cfg recordkey record status)
      (some (RecordMap.view sh m'.contents)) := by
  have hremoves : ∀ ks, ks = [] ∨ ks = evictedBy cfg recordkey (m.indexAfterUpdate recordkey) →
      Removes cfg (o.getD noRecords) recordkey ks := by
    rintro ks (rfl | rfl)
    · refine ⟨fun hne => absurd rfl hne, ?_, ?_, ?_⟩
      all_goals
        intro k hk
        cases hk
    · rw [ho]
      exact h.removes cfg recordkey
  have hstored : status.failRecordTooBig = false → status.oldRecord = false →
      record.length ≤ MAX_RECORD_SIZE →
      Next sh.decompressGzip o (.write cfg recordkey record status)
        (some (RecordMap.view sh m'.contents)) := by
    intro hsmall hnew hsize
    rw [hw.contents hsmall hnew, RecordMap.view_update, RecordMap.view_removeKeys, ← ho,
      Option.map_some]
    refine .stored o cfg recordkey record _ status _ hsize ⟨hsmall, hnew⟩ (hremoves _ ?_)
      (kept_compressRecord hz cfg record)
    rw [removedKeys]
    split
    · exact Or.inl rfl
    · exact Or.inr rfl
  cases hw with
  | tooBig hsize =>
    rw [← ho]
    exact .tooBig o cfg recordkey record _ hsize rfl
  | updated _ hsize _ _ _ => exact hstored rfl rfl hsize
  | stored _ _ hsize hst hsmall _ _ _ _ _ _ _ => exact hstored hsmall hst hsize
  | refused _ _ hsize hst hsmall _ hold _ hm =>
    rw [refusedBy, Bool.and_eq_true] at hold
    obtain ⟨hlimit, hloop⟩ := hold
    have hlimit' := hlimit
    rw [limitReached, Bool.and_eq_true] at hlimit'
    rw [hm.contents, RecordMap.view_removeKeys, RecordMap.view_update, ← ho, Option.map_none]
    refine .refused o cfg recordkey record _ _ hsize ⟨hsmall, hst⟩ hlimit'.1
      (hremoves _ (Or.inr rfl)) ?_
    obtain ⟨k, hk, hnot, hlt⟩ := refusedOld_newer (AvlTable.inOrder_nodup _) hloop
    refine ⟨k, ?_, hlt, ?_⟩
    · rw [evictedBy, if_pos hlimit]
      exact hnot
    · rw [ho]
      exact (h.mem_view_iff sh).mp (AList.mem_erase.mp (AvlTable.mem_inOrder.mp hk)).2

/-- A new manager has no records. -/
theorem view_create {m : Blman} (hm : create none = some m) :
    RecordMap.view sh m.contents = noRecords := by
  obtain ⟨m1, hm1, -, hcontents⟩ := create_none
  rw [hm] at hm1
  cases hm1
  rw [hcontents]
  rfl

/-- A defragmentation that loses nothing. -/
theorem Inv.view_defragment (hz : GzipOk sh) (h : m.Inv) {cfgs : ℕ → WriteCfg}
    (hlim : ∀ i, LimitKept (cfgs i) m.blockIndex.count) (hr : Repacks sh cfgs m)
    (hd : m.defragmentData sh cfgs = some m') :
    RecordMap.view sh m'.contents = RecordMap.view sh m.contents := by
  obtain ⟨m1, hd1, hkeeps⟩ := h.losesNothing hz hlim hr
  rw [hd] at hd1
  cases hd1
  have h' := h.defragmentData hd
  funext k
  have hkeys := hkeeps.keys k
  have hreads := hkeeps.reads k
  rw [mem_getAllRecordKeys, mem_getAllRecordKeys, h'.mem_view_iff sh, h.mem_view_iff sh] at hkeys
  rw [h'.readRecord_eq hz, h.readRecord_eq hz, Option.some.injEq] at hreads
  rw [← RecordMap.view, ← RecordMap.view] at hreads
  cases hv : RecordMap.view sh m.contents k with
  | none =>
    rw [hv] at hkeys
    exact not_ne_iff.mp fun hne => hkeys.mp hne rfl
  | some v =>
    rw [hv] at hkeys hreads
    obtain ⟨v', hv'⟩ := Option.ne_none_iff_exists'.mp (hkeys.mpr (Option.some_ne_none v))
    rw [hv'] at hreads ⊢
    exact congrArg some hreads

end Blman

end TransDB
