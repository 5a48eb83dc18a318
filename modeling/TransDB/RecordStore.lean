/-
What the store is for.

To a client an X is a map from Y to records, or not there. `next` says which answers it
may get and what an operation makes of the map; nothing in it knows of blocks, of files or
of the memory limit. Three things of the server do show:

* with the record limit on, a write removes records, the first ones in the order of the
  block index, and all of them older than the one written;
* a record that is itself a gzip stream may be given back decompressed;
* a single read loses what is in the output buffer before a record that looks like a gzip
  stream.

So a history says what a reader is given (`Answers`): nothing but the record of the last
write of its Y, and this record at least when no write since then can have removed it.
-/
import TransDB.BlockManagerDefrag
import TransDB.Refinement

set_option autoImplicit false

namespace TransDB

namespace RecordStore

/-- What is asked of an X, with the answer. -/
inductive Event
  | read (y : UInt64) (pData : List UInt8) (out : Option (List UInt8))
  | readAll (pData : List UInt8) (out : Option (List UInt8))
  | keys (out : Option (List UInt64))
  | write (cfg : WriteCfg) (y : UInt64) (record : List UInt8) (status : WriteStatus)
  | delete
  | deleteRecord (y : UInt64)
  | defragment

/-- The bytes that a read of one record gives. -/
def Event.found : Event → Option (List UInt8)
  | .read _ _ out => out
  | _ => none

/-- A new X. -/
def noRecords : RecordMap := fun _ => none

/-- `v` is what a record is read as. -/
def Kept (decompressGzip : List UInt8 → Option (List UInt8)) (record v : List UInt8) : Prop :=
  v = record ∨ decompressGzip record = some v

/-- The output of a single read: `v` behind what was in the buffer. -/
def Appends (pData v out : List UInt8) : Prop :=
  out = pData ++ v ∨ out = v ∧ (v.length < 2 ∨ v.take 2 = [0x1F, 0x8B])

/-- A list of all the keys, in the order of the block index. -/
structure Lists (f : RecordMap) (ys : List UInt64) : Prop where
  nodup : ys.Nodup
  mem : ∀ y, y ∈ ys ↔ f y ≠ none
  sorted : ys.Pairwise blockindex_le

/-- The keys that a write of `y` may remove. -/
structure Removes (cfg : WriteCfg) (f : RecordMap) (y : UInt64) (ks : List UInt64) : Prop where
  limited : ks ≠ [] → cfg.EnableRecordLimit = true
  present : ∀ k ∈ ks, f k ≠ none
  older : ∀ k ∈ ks, k < y
  first : ∀ k ∈ ks, ∀ j, f j ≠ none → j ∉ ks → j ≠ y → blockindex_le k j

/-- What an operation does to an X, and what it answers. -/
inductive Next (decompressGzip : List UInt8 → Option (List UInt8)) :
    Option RecordMap → Event → Option RecordMap → Prop
  | readAbsent (y : UInt64) (pData : List UInt8) :
    Next decompressGzip none (.read y pData none) none
  | read (f : RecordMap) (y : UInt64) (pData out : List UInt8)
    (habsent : f y = none → out = pData) (hfound : ∀ v, f y = some v → Appends pData v out) :
    Next decompressGzip (some f) (.read y pData (some out)) (some f)
  | readAllAbsent (pData : List UInt8) : Next decompressGzip none (.readAll pData none) none
  | readAll (f : RecordMap) (pData : List UInt8) (es : List Record) (hnodup : (Record.keys es).Nodup)
    (hmem : ∀ e, e ∈ es ↔ f e.key = some e.data) :
    Next decompressGzip (some f) (.readAll pData (some (pData ++ es.flatMap Record.entry))) (some f)
  | keysAbsent : Next decompressGzip none (.keys none) none
  | keys (f : RecordMap) (ys : List UInt64) (h : Lists f ys) :
    Next decompressGzip (some f) (.keys (some ys)) (some f)
  | tooBig (o : Option RecordMap) (cfg : WriteCfg) (y : UInt64) (record : List UInt8)
    (status : WriteStatus) (hsize : MAX_RECORD_SIZE < record.length)
    (hstatus : status.failRecordTooBig = true) :
    Next decompressGzip o (.write cfg y record status) (some (o.getD noRecords))
  | refused (o : Option RecordMap) (cfg : WriteCfg) (y : UInt64) (record : List UInt8)
    (status : WriteStatus) (ks : List UInt64) (hsize : record.length ≤ MAX_RECORD_SIZE)
    (hstatus : status.failRecordTooBig = false ∧ status.oldRecord = true)
    (hlimit : cfg.EnableRecordLimit = true) (hks : Removes cfg (o.getD noRecords) y ks)
    (hnewer : ∃ k, k ∉ ks ∧ y < k ∧ o.getD noRecords k ≠ none) :
    Next decompressGzip o (.write cfg y record status)
      (some (RecordMap.removeKeys (Function.update (o.getD noRecords) y none) ks))
  | stored (o : Option RecordMap) (cfg : WriteCfg) (y : UInt64) (record v : List UInt8)
    (status : WriteStatus) (ks : List UInt64) (hsize : record.length ≤ MAX_RECORD_SIZE)
    (hstatus : status.failRecordTooBig = false ∧ status.oldRecord = false)
    (hks : Removes cfg (o.getD noRecords) y ks) (hkept : Kept decompressGzip record v) :
    Next decompressGzip o (.write cfg y record status)
      (some (Function.update (RecordMap.removeKeys (o.getD noRecords) ks) y (some v)))
  | delete (o : Option RecordMap) : Next decompressGzip o .delete none
  | deleteRecordAbsent (y : UInt64) : Next decompressGzip none (.deleteRecord y) none
  | deleteRecord (f : RecordMap) (y : UInt64) :
    Next decompressGzip (some f) (.deleteRecord y) (some (Function.update f y none))
  | defragment (o : Option RecordMap) : Next decompressGzip o .defragment o

/-- An X, as its clients see it. -/
def oneX (decompressGzip : List UInt8 → Option (List UInt8)) : Spec (Option RecordMap) Event where
  next := Next decompressGzip

/-- The store, as its clients see it: each X on its own. -/
def store (decompressGzip : List UInt8 → Option (List UInt8)) :
    Spec (UInt64 → Option RecordMap) (UInt64 × Event) :=
  Spec.copies fun _ => oneX decompressGzip

/-! ## What a history says -/

/-- The record that an event leaves under the key `y`, where `o` was; `removes` says which
writes of other keys may remove it. -/
def recordAfter (removes : WriteCfg → UInt64 → Bool) (y : UInt64) (o : Option (List UInt8)) :
    Event → Option (List UInt8)
  | .write cfg k record status =>
    if status.failRecordTooBig then o
    else if k = y then (if status.oldRecord then none else some record)
    else if removes cfg k then none
    else o
  | .delete => none
  | .deleteRecord k => if k = y then none else o
  | _ => o

/-- The record of the last write of `y`, unless `y` has been deleted since. -/
def lastWrite (y : UInt64) (es : List Event) : Option (List UInt8) :=
  es.foldl (recordAfter (fun _ _ => false) y) none

/-- The same, unless the record limit may have removed it: a write removes records of
smaller keys. -/
def sureWrite (y : UInt64) (es : List Event) : Option (List UInt8) :=
  es.foldl (recordAfter (fun cfg k => cfg.EnableRecordLimit && decide (y < k)) y) none

theorem lastWrite_snoc (y : UInt64) (es : List Event) (e : Event) :
    lastWrite y (es ++ [e]) = recordAfter (fun _ _ => false) y (lastWrite y es) e := by
  rw [lastWrite, List.foldl_append]
  rfl

theorem sureWrite_snoc (y : UInt64) (es : List Event) (e : Event) :
    sureWrite y (es ++ [e])
      = recordAfter (fun cfg k => cfg.EnableRecordLimit && decide (y < k)) y (sureWrite y es) e := by
  rw [sureWrite, List.foldl_append]
  rfl

/-- The last write is one of the events. -/
theorem mem_of_lastWrite {y : UInt64} {es : List Event} {record : List UInt8}
    (h : lastWrite y es = some record) : ∃ cfg status, .write cfg y record status ∈ es := by
  induction es using List.reverseRecOn with
  | nil => cases h
  | append_singleton es e ih =>
    have hearlier : lastWrite y es = some record →
        ∃ cfg status, .write cfg y record status ∈ es ++ [e] := by
      intro hes
      obtain ⟨cfg, status, hmem⟩ := ih hes
      exact ⟨cfg, status, List.mem_append_left _ hmem⟩
    rw [lastWrite_snoc] at h
    cases e with
    | write cfg k record' status =>
      rw [recordAfter] at h
      split at h
      case isTrue => exact hearlier h
      case isFalse =>
        split at h
        case isTrue hk =>
          subst hk
          split at h
          case isTrue => cases h
          case isFalse =>
            cases h
            exact ⟨cfg, status, List.mem_append_right _ List.mem_cons_self⟩
        case isFalse =>
          rw [if_neg Bool.false_ne_true] at h
          exact hearlier h
    | delete => cases h
    | deleteRecord k =>
      rw [recordAfter] at h
      split at h
      case isTrue => cases h
      case isFalse => exact hearlier h
    | _ => exact hearlier h

variable {z : List UInt8 → Option (List UInt8)} {o o' : Option RecordMap} {es : List Event}
  {e : Event}

/-- What a history has to do with an X. -/
structure Recalls (decompressGzip : List UInt8 → Option (List UInt8)) (o : Option RecordMap)
    (es : List Event) : Prop where
  last : ∀ y v, (o.getD noRecords) y = some v →
    ∃ record, lastWrite y es = some record ∧ Kept decompressGzip record v
  sure : ∀ y, sureWrite y es ≠ none → (o.getD noRecords) y ≠ none

theorem Recalls.nil : Recalls z none [] where
  last y v hv := by cases hv
  sure y hne := absurd rfl hne

/-- An event that leaves the records as they are, and is no write or deletion of one. -/
theorem Recalls.same (h : Recalls z o es) (ho : o'.getD noRecords = o.getD noRecords)
    (he : ∀ removes y r, recordAfter removes y r e = r) : Recalls z o' (es ++ [e]) where
  last y v hv := by
    rw [lastWrite_snoc, he]
    exact h.last y v (by rwa [← ho])
  sure y hne := by
    rw [sureWrite_snoc, he] at hne
    rw [ho]
    exact h.sure y hne

/-- A write that removes the records `ks`, and leaves `r` under its own key. -/
theorem Recalls.written (h : Recalls z o es) {cfg : WriteCfg} {k : UInt64} {record : List UInt8}
    {status : WriteStatus} {ks : List UInt64} {f : RecordMap} (hbig : status.failRecordTooBig = false)
    (hks : Removes cfg (o.getD noRecords) k ks)
    (hother : ∀ j, j ≠ k → f j = if j ∈ ks then none else (o.getD noRecords) j)
    (hold : status.oldRecord = true → f k = none)
    (hnew : status.oldRecord = false → ∃ v, f k = some v ∧ Kept z record v) :
    Recalls z (some f) (es ++ [.write cfg k record status]) where
  last y v hv := by
    rw [lastWrite_snoc, recordAfter, if_neg (by rw [hbig]; exact Bool.false_ne_true)]
    change f y = some v at hv
    by_cases hy : k = y
    · subst hy
      rw [if_pos rfl]
      cases hst : status.oldRecord with
      | true =>
        rw [hold hst] at hv
        cases hv
      | false =>
        obtain ⟨v', hv', hkept⟩ := hnew hst
        rw [hv] at hv'
        cases hv'
        exact ⟨record, rfl, hkept⟩
    · rw [if_neg hy, if_neg Bool.false_ne_true]
      rw [hother y (Ne.symm hy)] at hv
      split at hv
      case isTrue => cases hv
      case isFalse => exact h.last y v hv
  sure y hne := by
    rw [sureWrite_snoc, recordAfter, if_neg (by rw [hbig]; exact Bool.false_ne_true)] at hne
    change f y ≠ none
    by_cases hy : k = y
    · subst hy
      rw [if_pos rfl] at hne
      cases hst : status.oldRecord with
      | true =>
        rw [hst] at hne
        exact absurd rfl hne
      | false =>
        obtain ⟨v, hv, -⟩ := hnew hst
        rw [hv]
        exact Option.some_ne_none v
    · rw [if_neg hy] at hne
      split at hne
      case isTrue => exact absurd rfl hne
      case isFalse hkeep =>
        have hnot : y ∉ ks := by
          intro hmem
          refine hkeep ?_
          rw [hks.limited (List.ne_nil_of_mem hmem), Bool.true_and, decide_eq_true_eq]
          exact hks.older y hmem
        rw [hother y (Ne.symm hy), if_neg hnot]
        exact h.sure y hne

theorem Recalls.next (h : Recalls z o es) (hn : Next z o e o') : Recalls z o' (es ++ [e]) := by
  cases hn with
  | tooBig _ cfg y record status hsize hstatus =>
    refine h.same rfl fun removes y r => ?_
    rw [recordAfter, if_pos hstatus]
  | refused _ cfg y record status ks hsize hstatus hlimit hks hnewer =>
    refine h.written hstatus.1 hks (fun j hj => ?_) (fun _ => ?_) fun hst => ?_
    · rw [RecordMap.removeKeys, Function.update_of_ne hj]
    · rw [RecordMap.removeKeys, Function.update_self, ite_self]
    · rw [hstatus.2] at hst
      cases hst
  | stored _ cfg y record v status ks hsize hstatus hks hkept =>
    refine h.written hstatus.1 hks (fun j hj => ?_) (fun hst => ?_) fun _ => ?_
    · rw [Function.update_of_ne hj, RecordMap.removeKeys]
    · rw [hstatus.2] at hst
      cases hst
    · exact ⟨v, Function.update_self _ _ _, hkept⟩
  | delete =>
    refine ⟨fun y v hv => absurd hv (Option.some_ne_none v).symm, fun y hne => ?_⟩
    rw [sureWrite_snoc] at hne
    exact absurd rfl hne
  | deleteRecordAbsent k =>
    refine ⟨fun y v hv => absurd hv (Option.some_ne_none v).symm, fun y hne => ?_⟩
    rw [sureWrite_snoc, recordAfter] at hne
    split at hne
    case isTrue => exact absurd rfl hne
    case isFalse => exact h.sure y hne
  | deleteRecord f k =>
    refine ⟨fun y v hv => ?_, fun y hne => ?_⟩
    · change Function.update f k none y = some v at hv
      rw [lastWrite_snoc, recordAfter]
      by_cases hy : k = y
      · subst hy
        rw [Function.update_self] at hv
        cases hv
      · rw [Function.update_of_ne (Ne.symm hy)] at hv
        rw [if_neg hy]
        exact h.last y v hv
    · change Function.update f k none y ≠ none
      rw [sureWrite_snoc, recordAfter] at hne
      split at hne
      case isTrue => exact absurd rfl hne
      case isFalse hy =>
        rw [Function.update_of_ne (Ne.symm hy)]
        exact h.sure y hne
  | _ => exact h.same rfl fun _ _ _ => rfl

/-- What the events before it say of an answer. -/
def Answers (decompressGzip : List UInt8 → Option (List UInt8)) (es : List Event) : Event → Prop
  | .read y pData out =>
    out.getD pData = pData ∧ sureWrite y es = none
      ∨ ∃ record v bytes, out = some bytes ∧ lastWrite y es = some record
        ∧ Kept decompressGzip record v ∧ Appends pData v bytes
  | .readAll pData out => ∃ rs : List Record, out.getD pData = pData ++ rs.flatMap Record.entry
      ∧ (Record.keys rs).Nodup
      ∧ (∀ r ∈ rs, ∃ record, lastWrite r.key es = some record ∧ Kept decompressGzip record r.data)
      ∧ ∀ y, sureWrite y es ≠ none → y ∈ Record.keys rs
  | .keys out => (out.getD []).Nodup ∧ (out.getD []).Pairwise blockindex_le
      ∧ (∀ y ∈ out.getD [], lastWrite y es ≠ none) ∧ ∀ y, sureWrite y es ≠ none → y ∈ out.getD []
  | _ => True

theorem Recalls.answers (h : Recalls z o es) (hn : Next z o e o') : Answers z es e := by
  have hnever : o = none → ∀ y, sureWrite y es = none := by
    rintro rfl y
    by_contra hne
    exact h.sure y hne rfl
  cases hn with
  | readAbsent y pData => exact Or.inl ⟨rfl, hnever rfl y⟩
  | read f y pData out habsent hfound =>
    cases hv : f y with
    | none =>
      refine Or.inl ⟨habsent hv, ?_⟩
      by_contra hne
      exact h.sure y hne hv
    | some v =>
      obtain ⟨record, hlast, hkept⟩ := h.last y v hv
      exact Or.inr ⟨record, v, out, rfl, hlast, hkept, hfound v hv⟩
  | readAllAbsent pData =>
    refine ⟨[], (List.append_nil _).symm, List.nodup_nil, fun r hr => ?_, fun y hne => ?_⟩
    · cases hr
    · exact absurd (hnever rfl y) hne
  | readAll f pData rs hnodup hmem =>
    refine ⟨rs, rfl, hnodup, fun r hr => h.last r.key r.data ((hmem r).mp hr), fun y hne => ?_⟩
    obtain ⟨v, hv⟩ := Option.ne_none_iff_exists'.mp (h.sure y hne)
    exact List.mem_map.mpr ⟨⟨y, v⟩, (hmem ⟨y, v⟩).mpr hv, rfl⟩
  | keysAbsent =>
    refine ⟨List.nodup_nil, List.Pairwise.nil, fun y hy => ?_, fun y hne => ?_⟩
    · cases hy
    · exact absurd (hnever rfl y) hne
  | keys f ys hys =>
    refine ⟨hys.nodup, hys.sorted, fun y hy => ?_, fun y hne => (hys.mem y).mpr (h.sure y hne)⟩
    obtain ⟨v, hv⟩ := Option.ne_none_iff_exists'.mp ((hys.mem y).mp hy)
    obtain ⟨record, hlast, -⟩ := h.last y v hv
    rw [hlast]
    exact Option.some_ne_none record
  | _ => exact trivial

/-- In every run, each answer is what the events before it say. -/
theorem runs_answers (h : (oneX z).Runs none es o) :
    ∀ pre e post, es = pre ++ e :: post → Answers z pre e := by
  have hstart : Recalls z none [] ∧ ∀ pre e post, [] = pre ++ e :: post → Answers z pre e :=
    ⟨.nil, fun pre e post hnil =>
      absurd hnil.symm (List.append_ne_nil_of_right_ne_nil _ (List.cons_ne_nil _ _))⟩
  have hend := h.invariant (fun o es =>
    Recalls z o es ∧ ∀ pre e post, es = pre ++ e :: post → Answers z pre e) ?_ hstart
  · rw [List.nil_append] at hend
    exact hend.2
  · rintro t es e u ⟨hrec, hall⟩ hn
    refine ⟨hrec.next hn, fun pre e' post hes => ?_⟩
    rcases List.eq_nil_or_concat post with rfl | ⟨post', last, rfl⟩
    · obtain ⟨rfl, hlast⟩ := List.append_inj' hes rfl
      cases hlast
      exact hrec.answers hn
    · rw [List.concat_eq_append, ← List.cons_append, ← List.append_assoc] at hes
      exact hall pre e' post' (List.append_inj' hes rfl).1

/-- The same for a store that starts without an X: the events that count are those of the
same X. -/
theorem store_answers {fs : List (UInt64 × Event)} {f : UInt64 → Option RecordMap}
    (h : (store z).Runs (fun _ => none) fs f) {pre post : List (UInt64 × Event)} {x : UInt64}
    (hfs : fs = pre ++ (x, e) :: post) : Answers z (Spec.eventsOf x pre) e := by
  have hx := Spec.copies_runs_iff.mp h x
  rw [hfs, Spec.eventsOf_append, Spec.eventsOf_cons_self] at hx
  exact runs_answers hx _ e _ rfl

end RecordStore

end TransDB
