/-
A crash while a batch is being written.

The disk thread first clears the slots of what has been deleted, and then writes the X
of the batch, each with its blocks first and its record behind them. A crash leaves the
files after the first few of these calls. At each such point the regions of the records
are apart; and the slot of an X that has been given a new place holds its old record,
with the old blocks, or the new one, with the new blocks. The workers go on meanwhile;
they write nothing.
-/
import TransDB.CrashPoint
import TransDB.SystemProcess

set_option autoImplicit false

namespace TransDB

open DiskWriter Storage

/-- The records a start would find. -/
abbrev Files.records (f : Files) : List ((ℕ × ℕ) × DREC) := IndexBlock.fileEntries 0 f.index

/-- The regions of the records are apart, and in the data file. -/
structure Files.Whole (f : Files) : Prop where
  apart : (f.records.map fun e => e.2.region).Pairwise Region.Apart
  inside : ∀ e ∈ f.records, 0 ≤ e.2.region.pos ∧ e.2.region.stop ≤ f.data.size

/-- The blocks of a record are in both files, and have its CRC. -/
def SameBlocks (sh : Shared) (f g : DataFile) (d : DREC) : Prop :=
  ∃ bs, Intact sh f d bs ∧ Intact sh g d bs

theorem FilesOk.whole {sh : Shared} {f : Files} (h : FilesOk sh f) : f.Whole :=
  ⟨h.apart, fun _ he => (h.inside he).2⟩

theorem SameBlocks.onlyIn {sh : Shared} {f g k : DataFile} {d : DREC} {reg : Region}
    (h : SameBlocks sh f g d) (hk : DataFile.OnlyIn reg g k) (ha : d.region.Apart reg) :
    SameBlocks sh f k d := by
  obtain ⟨bs, hf, hg⟩ := h
  exact ⟨bs, hf, hg.onlyIn hk ha⟩

/-- An effect leaves the record of an X as it is; a new X has none. -/
theorem EntryEffect.record {allowed : Allowed} {x : UInt64} {f : DataFile} {o : Option RecordIndex}
    {r' : RecordIndex} {slot : ℕ × ℕ} (he : EntryEffect allowed x f o r')
    (hs : r'.slot = some slot) :
    ∃ r, o = some r ∧ r.slot = some slot ∧ r.toDREC x = r'.toDREC x := by
  cases he with
  | same r => exact ⟨r', rfl, hs, rfl⟩
  | load r bs m hmgr hrel hread hm => exact ⟨r, rfl, hs, rfl⟩
  | edit r m e hm hok ha => exact ⟨r, rfl, hs, rfl⟩
  | evict r m hm hidle => exact ⟨r, rfl, hs, rfl⟩
  | create m blockCount hm =>
    rw [RecordIndex.slot_unwritten rfl] at hs
    cases hs

/-- What a worker leaves alone: the files, and the records of the X there are. -/
structure SameRecords (st st' : Storage) : Prop where
  files : st'.files = st.files
  writes : st'.trace.writes = st.trace.writes
  entry : ∀ x r' slot, st'.m_dataIndexes.lookup x = some r' → r'.slot = some slot →
    ∃ r, st.m_dataIndexes.lookup x = some r ∧ r.slot = some slot ∧ r.toDREC x = r'.toDREC x

theorem SameRecords.of_eq {st st' : Storage} (hfiles : st'.files = st.files)
    (hwrites : st'.trace.writes = st.trace.writes)
    (hlive : st'.m_dataIndexes = st.m_dataIndexes) : SameRecords st st' := by
  refine ⟨hfiles, hwrites, fun x r slot hx hs => ⟨r, ?_, hs, rfl⟩⟩
  rw [← hlive]
  exact hx

theorem Effects.sameRecords {sh : Shared} {allowed : Allowed} {st st' : Storage}
    (he : Effects sh allowed st st') : SameRecords st st' := by
  refine he.invariant (SameRecords st) ?_ (SameRecords.of_eq rfl rfl rfl)
  intro st1 st2 h he1
  have hwrites : st2.trace.writes = st1.trace.writes := by
    rcases he1.sameHeld with hs | ⟨x, r, -, hx, rfl⟩
    · rw [hs.trace]
    · rfl
  refine ⟨he1.sameDisk.files.trans h.files, hwrites.trans h.writes, ?_⟩
  intro x r' slot hx hs
  obtain ⟨r1, h1, hs1, hd1⟩ := (he1.entry hx).record hs
  obtain ⟨r, h0, hs0, hd0⟩ := h.entry x r1 slot h1 hs1
  exact ⟨r, h0, hs0, hd0.trans hd1⟩

/-! ## The calls of one item -/

section Item

variable {sh : Shared} {cfg : DiskCfg} {st st' : Storage} {x : UInt64} {r r' : RecordIndex}
  {m : Blman} {other : List Region} {ws iw : List FileWrite} {size : Int} {free : FreeSpaceBlockMap}
  {p : Int} {index : IndexBlock} {file : IndexFile} {log : List FileWrite} {slot : ℕ × ℕ}
  {rest : List ((ℕ × ℕ) × DREC)} {reg : Region}

theorem ItemDone.files_eq (h : ItemDone sh cfg st x r m other st' r' ws size free p index file log)
    (hiw : IndexWrites st.files.index iw file) :
    st'.files = (ws ++ iw).foldl Files.apply st.files := by
  have hindex : (ws.foldl Files.apply st.files).index = st.files.index := h.placed.confined.index_eq
  rw [← hindex] at hiw
  rw [List.foldl_append, hiw.foldl, h.store]
  rfl

/-- A crash during an item leaves the record of its X, or comes behind the last call. -/
theorem ItemDone.crashPoint
    (h : ItemDone sh cfg st x r m other st' r' ws size free p index file log)
    (hiw : IndexWrites st.files.index iw file) {f : Files}
    (hf : CrashPoint Files.apply st.files (ws ++ iw) f) :
    DataFile.OnlyIn (DataFile.blocksAt p m.blockCount) st.files.data f.data
      ∧ (f.index = st.files.index ∨ f = st'.files) := by
  have hdata : ∀ {f : Files}, CrashPoint Files.apply st.files ws f →
      DataFile.OnlyIn (DataFile.blocksAt p m.blockCount) st.files.data f.data
        ∧ (f.index = st.files.index ∨ f = st'.files) := by
    rintro f ⟨first, hfirst, rfl⟩
    obtain ⟨honly, hindex⟩ := h.placed.confined.of_prefix hfirst
    exact ⟨honly, Or.inl hindex⟩
  have hfiles := h.files_eq hiw
  rcases hiw with ⟨rfl, -⟩ | ⟨n, b, rfl, -⟩
  · rw [List.append_nil] at hf
    exact hdata hf
  · rcases CrashPoint.concat.mp hf with hf | hf
    · exact hdata hf
    · rw [← hfiles] at hf
      subst hf
      exact ⟨h.onlyIn, Or.inr rfl⟩

/-- The slots in use stay in use. -/
theorem ItemRecords.slots (h : ItemRecords st x r r' reg file iw slot rest) {s : ℕ × ℕ}
    (hs : s ∈ st.files.records.map Prod.fst) :
    s ∈ (IndexBlock.fileEntries 0 file).map Prod.fst := by
  obtain ⟨e, he, rfl⟩ := List.mem_map.mp hs
  rcases List.mem_append.mp (h.before.mem_iff.mp he) with hx | hrest
  · cases hslot : r.slot with
    | none =>
      rw [RecordIndex.slotEntry, hslot] at hx
      cases hx
    | some s =>
      rw [RecordIndex.slotEntry_eq hslot, List.mem_singleton] at hx
      rw [hx, h.stays s hslot]
      exact List.mem_map.mpr ⟨_, h.after.mem_iff.mpr List.mem_cons_self, rfl⟩
  · exact List.mem_map.mpr ⟨e, h.after.mem_iff.mpr (List.mem_cons_of_mem _ hrest), rfl⟩

/-- The record of another X is there before and after. -/
theorem ItemRecords.of_key_ne (h : ItemRecords st x r r' reg file iw slot rest)
    {e : (ℕ × ℕ) × DREC} (he : e ∈ st.files.records) (hkey : e.2.m_key ≠ x) :
    e ∈ rest ∧ e ∈ IndexBlock.fileEntries 0 file := by
  have hrest : e ∈ rest := by
    refine (List.mem_append.mp (h.before.mem_iff.mp he)).resolve_left fun hx => hkey ?_
    exact IndexBlock.Client.slotEntry_key hx
  exact ⟨hrest, h.after.mem_iff.mpr (List.mem_cons_of_mem _ hrest)⟩

/-- The new slot of an X that had none was not in use. -/
theorem ItemRecords.fresh (h : ItemRecords st x r r' reg file iw slot rest) (hs : r.slot = none) :
    slot ∉ st.files.records.map Prod.fst := by
  intro hmem
  obtain ⟨e, he, rfl⟩ := List.mem_map.mp hmem
  have hrest := h.before.mem_iff.mp he
  rw [RecordIndex.slotEntry, hs, List.nil_append] at hrest
  have hnodup := (h.after.map Prod.fst).nodup_iff.mp (IndexBlock.fileEntries_nodup 0 file)
  exact (List.nodup_cons.mp hnodup).1 (List.mem_map.mpr ⟨e, hrest, rfl⟩)

end Item

theorem IndexWrites.crashPoint {f g : Files} {iw : List FileWrite} {after : IndexFile}
    (hiw : IndexWrites f.index iw after) (hg : CrashPoint Files.apply f iw g) :
    g = f ∨ g = ⟨f.data, after⟩ := by
  have hdone := hiw.foldl
  rcases hiw with ⟨rfl, -⟩ | ⟨n, b, rfl, -⟩
  · exact Or.inl hg.of_nil
  · rw [← List.nil_append [_]] at hg
    rcases CrashPoint.concat.mp hg with hg | hg
    · exact Or.inl hg.of_nil
    · rw [List.nil_append, hdone] at hg
      exact Or.inr hg

/-- The batch has been taken from the queue. -/
def DiskPc.flushing : DiskPc → Bool
  | .writing _ _ => true
  | _ => false

namespace Sys

variable {sh : Shared} {f0 : Files} {ws : List FileWrite} {s t : Sys}

/-- A step of one `Process`, or of a worker before it or meanwhile: the disk thread does
not leave the batch it has taken. -/
def During (s : Sys) (a : Action) (t : Sys) : Prop :=
  Small s a t ∧ a.plain = true ∧ (s.disk.flushing = true → t.disk.flushing = true)

/-! ## What is true at every crash point -/

/-- The crash points since the files were `f0`. As long as only deletions have been
made, the data is as it was, and there are fewer and fewer records; so a slot that is
not in use has held nothing else. What an X of the batch has in the file has not been
touched while it waits. -/
structure Crashes (sh : Shared) (f0 : Files) (ws : List FileWrite) (t : Sys) : Prop where
  files : t.store.files = ws.foldl Files.apply f0
  whole : ∀ f, CrashPoint Files.apply f0 ws f → f.Whole
  erased : t.disk.flushing = false → ∀ f, CrashPoint Files.apply f0 ws f →
    f.data = f0.data ∧ f.records ⊆ f0.records ∧ t.store.files.records ⊆ f.records
  unused : ∀ f, CrashPoint Files.apply f0 ws f → ∀ e ∈ f.records,
    e.1 ∉ t.store.files.records.map Prod.fst → e ∈ f0.records ∧ f.data = f0.data
  waiting : ∀ x ∈ t.disk.items.map WriteInfo.m_key, ∀ r slot,
    t.store.m_dataIndexes.lookup x = some r → r.slot = some slot →
    ∀ f, CrashPoint Files.apply f0 ws f →
      (slot, r.toDREC x) ∈ f.records ∧ SameBlocks sh f0.data f.data (r.toDREC x)

namespace Crashes

/-- The files there are now are one of the crash points. -/
theorem now (h : Crashes sh f0 ws s) : CrashPoint Files.apply f0 ws s.store.files := by
  rw [h.files]
  exact CrashPoint.done

theorem start {lost : List ((ℕ × ℕ) × Region)} (hinv : s.Inv sh lost) (hd : s.disk = .idle) :
    Crashes sh s.store.files [] s where
  files := rfl
  whole f hf := by
    rw [hf.of_nil]
    exact (StorageInv.filesOk hinv).whole
  erased _ f hf := by
    rw [hf.of_nil]
    exact ⟨rfl, List.Subset.refl _, List.Subset.refl _⟩
  unused f hf e he hslot := by
    rw [hf.of_nil] at he
    exact absurd (List.mem_map.mpr ⟨e, he, rfl⟩) hslot
  waiting x hx := by
    rw [hd] at hx
    cases hx

/-- A step that writes nothing. -/
theorem same (h : Crashes sh f0 ws s) (hsame : SameRecords s.store t.store)
    (hflush : t.disk.flushing = false → s.disk.flushing = false)
    (hitems : t.disk.items.map WriteInfo.m_key ⊆ s.disk.items.map WriteInfo.m_key) :
    Crashes sh f0 ws t where
  files := hsame.files.trans h.files
  whole := h.whole
  erased ht := by
    rw [hsame.files]
    exact h.erased (hflush ht)
  unused := by
    rw [hsame.files]
    exact h.unused
  waiting x hx r' slot hr hs f hf := by
    obtain ⟨r, hr0, hs0, hd⟩ := hsame.entry x r' slot hr hs
    rw [← hd]
    exact h.waiting x (hitems hx) r slot hr0 hs0 f hf

/-- One deletion. -/
theorem deleteItem {lost : List ((ℕ × ℕ) × Region)} {r : RecordIndex} {rest : List RecordIndex}
    {cacheSize : ℕ} {store : Storage} (h : Crashes sh f0 ws s) (hinv : s.Inv sh lost)
    (hd : s.disk = .deleting (r :: rest))
    (hi : DiskWriter.deleteItem cacheSize s.store r = some store) :
    ∃ iw, store.trace.writes = s.store.trace.writes ++ iw
      ∧ Crashes sh f0 (ws ++ iw) ⟨store, s.lru, .deleting rest, s.removing⟩ := by
  rw [Inv, hd] at hinv
  obtain ⟨index, file, iw, store', hi', hstore, hinv', hiw, -, hsub⟩ :=
    StorageInv.deleteItem hinv cacheSize
  rw [hi] at hi'
  cases hi'
  have hfiles : store.files = ⟨s.store.files.data, file⟩ := by rw [hstore]
  have herased := h.erased (by rw [hd]; rfl)
  have hnow := herased _ h.now
  have hcur : s.store.files.records ⊆ f0.records := hnow.2.1
  have hless : store.files.records ⊆ s.store.files.records := by
    rw [hfiles]
    exact fun e he => hsub e he
  have hpoints : ∀ f, CrashPoint Files.apply f0 (ws ++ iw) f →
      CrashPoint Files.apply f0 ws f ∨ f = store.files := by
    intro f hf
    rcases CrashPoint.append.mp hf with hf | hf
    · exact Or.inl hf
    · rw [← h.files] at hf
      rcases hiw.crashPoint hf with rfl | rfl
      · exact Or.inl h.now
      · exact Or.inr hfiles.symm
  have hall : ∀ f, CrashPoint Files.apply f0 (ws ++ iw) f →
      f.data = f0.data ∧ f.records ⊆ f0.records ∧ store.files.records ⊆ f.records := by
    intro f hf
    rcases hpoints f hf with hf | rfl
    · obtain ⟨hdata, hrec, hkeep⟩ := herased f hf
      exact ⟨hdata, hrec, fun e he => hkeep (hless he)⟩
    · refine ⟨?_, fun e he => hcur (hless he), List.Subset.refl _⟩
      rw [hfiles]
      exact hnow.1
  refine ⟨iw, by rw [hstore], ?_, ?_, fun _ => hall, ?_, ?_⟩
  · rw [List.foldl_append, ← h.files, hiw.foldl]
    exact hfiles
  · intro f hf
    rcases hpoints f hf with hf | rfl
    · exact h.whole f hf
    · exact (StorageInv.filesOk hinv').whole
  · intro f hf e he _
    obtain ⟨hdata, hrec, -⟩ := hall f hf
    exact ⟨hrec he, hdata⟩
  · intro x hx
    cases hx

/-- The batch is taken: its X have not been touched. -/
theorem getItems {lost : List ((ℕ × ℕ) × Region)} {order : List UInt64} {items : List WriteInfo}
    {store : Storage} (h : Crashes sh f0 ws s) (hinv : s.Inv sh lost) (hd : s.disk = .deleting [])
    (hg : DiskWriter.getItems s.store order = some (items, store)) :
    Crashes sh f0 ws ⟨store, s.lru, .writing items [], s.removing⟩ := by
  have herased := h.erased (by rw [hd]; rfl)
  obtain ⟨-, -, rfl⟩ := getItems_cases hg
  refine ⟨h.files, h.whole, by rintro ⟨⟩, h.unused, ?_⟩
  intro x _ r slot hx hs f hf
  have hmem := (hinv.index.live x r hx).written slot hs
  obtain ⟨bs, hbs⟩ := hinv.index.intact _ hmem
  obtain ⟨hdata, -, hkeep⟩ := herased f hf
  refine ⟨hkeep hmem, bs, ?_⟩
  rw [hdata, ← (herased _ h.now).1]
  exact ⟨hbs, hbs⟩

/-- One item: while it is written, the file is the one before but for the region that
is written. -/
theorem item {lost : List ((ℕ × ℕ) × Region)} {cfg : DiskCfg} {item : WriteInfo}
    {items : List WriteInfo} {toAdd : List Region} {store : Storage} {r r' : RecordIndex}
    {m : Blman} {other : List Region} {wrote iw : List FileWrite} {size : Int}
    {free : FreeSpaceBlockMap} {p : Int} {index : IndexBlock} {file : IndexFile}
    {log : List FileWrite} {slot : ℕ × ℕ} {rest : List ((ℕ × ℕ) × DREC)}
    (h : Crashes sh f0 ws s) (hd : s.disk = .writing (item :: items) toAdd)
    (hkeys : item.m_key ∉ items.map WriteInfo.m_key)
    (hi : ItemDone sh cfg s.store item.m_key r m other store r' wrote size free p index file log)
    (hrec : ItemRecords s.store item.m_key r r' (DataFile.blocksAt p m.blockCount) file iw slot rest)
    (hinv' : StorageInv sh store [] (toAdd ++ givenUp r) lost) :
    Crashes sh f0 (ws ++ (wrote ++ iw)) ⟨store, s.lru, .writing items (toAdd ++ givenUp r), s.removing⟩
    where
  files := by
    rw [List.foldl_append, ← h.files, ← hi.files_eq hrec.writes]
  whole f hf := by
    rcases CrashPoint.append.mp hf with hf | hf
    · exact h.whole f hf
    · rw [← h.files] at hf
      obtain ⟨honly, hindex | rfl⟩ := hi.crashPoint hrec.writes hf
      · -- the records are those from before the item
        have hwhole := h.whole _ h.now
        have hsize := honly.size_le
        refine ⟨?_, ?_⟩
        · rw [Files.records, hindex]
          exact hwhole.apart
        · intro e he
          rw [Files.records, hindex] at he
          have hin := hwhole.inside e he
          omega
      · exact (StorageInv.filesOk hinv').whole
  erased := by rintro ⟨⟩
  unused f hf e he hslot := by
    have hfile : store.files.index = file := by
      rw [hi.store]
      rfl
    have hold : e.1 ∉ s.store.files.records.map Prod.fst := by
      intro hmem
      refine hslot ?_
      show e.1 ∈ (IndexBlock.fileEntries 0 store.files.index).map Prod.fst
      rw [hfile]
      exact hrec.slots hmem
    rcases CrashPoint.append.mp hf with hf | hf
    · exact h.unused f hf e he hold
    · rw [← h.files] at hf
      obtain ⟨-, hindex | rfl⟩ := hi.crashPoint hrec.writes hf
      · rw [Files.records, hindex] at he
        exact absurd (List.mem_map.mpr ⟨e, he, rfl⟩) hold
      · exact absurd (List.mem_map.mpr ⟨e, he, rfl⟩) hslot
  waiting x hx ry sy hry hsy f hf := by
    have hne : x ≠ item.m_key := by
      rintro rfl
      exact hkeys hx
    have hry0 : s.store.m_dataIndexes.lookup x = some ry := by
      have hnew : store.m_dataIndexes.lookup x = some ry := hry
      rw [hi.store] at hnew
      exact (AList.lookup_insert_ne hne).symm.trans hnew
    have hx0 : x ∈ s.disk.items.map WriteInfo.m_key := by
      rw [hd]
      exact List.mem_cons_of_mem _ hx
    have hwait := h.waiting x hx0 ry sy hry0 hsy
    rcases CrashPoint.append.mp hf with hf | hf
    · exact hwait f hf
    · rw [← h.files] at hf
      obtain ⟨hmem, hsame⟩ := hwait _ h.now
      obtain ⟨hrest, hfile⟩ := hrec.of_key_ne hmem hne
      obtain ⟨honly, hindex⟩ := hi.crashPoint hrec.writes hf
      refine ⟨?_, hsame.onlyIn honly (hrec.apart _ hrest)⟩
      rcases hindex with hindex | rfl
      · rw [Files.records, hindex]
        exact hmem
      · rw [hi.store]
        exact hfile

/-- Every step of the flush adds its writes. -/
theorem move {lost : List ((ℕ × ℕ) × Region)} {a : Action} (h : Crashes sh f0 ws s)
    (hinv : s.Inv sh lost) (hq : QueueInv s.store s.disk.items) (hok : During s a t)
    (hm : Move sh s a t) :
    ∃ ws', t.store.trace.writes = s.store.trace.writes ++ ws' ∧ Crashes sh f0 (ws ++ ws') t := by
  have hnone : ∀ {t : Sys}, SameRecords s.store t.store →
      (t.disk.flushing = false → s.disk.flushing = false) →
      t.disk.items.map WriteInfo.m_key ⊆ s.disk.items.map WriteInfo.m_key →
      ∃ ws', t.store.trace.writes = s.store.trace.writes ++ ws' ∧ Crashes sh f0 (ws ++ ws') t := by
    intro t hsame hflush hitems
    refine ⟨[], by rw [hsame.writes, List.append_nil], ?_⟩
    rw [List.append_nil]
    exact h.same hsame hflush hitems
  cases hm with
  | worker store lru removing he hr hw =>
    exact hnone he.sameRecords (fun hf => hf) (List.Subset.refl _)
  | remove x ha hx => exact hnone (.of_eq rfl rfl rfl) (fun hf => hf) (List.Subset.refl _)
  | beginProcess order rs store hd hg =>
    obtain ⟨-, -, rfl⟩ := getDeleted_cases hg
    refine hnone (.of_eq rfl rfl rfl) (fun _ => ?_) (List.nil_subset _)
    rw [hd]
    rfl
  | deleteItem cacheSize r rest store hd hi => exact h.deleteItem hinv hd hi
  | getItems order items store hd hg =>
    refine ⟨[], ?_, ?_⟩
    · obtain ⟨-, -, rfl⟩ := getItems_cases hg
      exact (List.append_nil _).symm
    · rw [List.append_nil]
      exact h.getItems hinv hd hg
  | processItem cfg item items toAdd toAdd' store hd hp =>
    rw [hd] at hq
    have hkeys := (List.nodup_cons.mp hq.nodup).1
    have hinv0 := hinv
    rw [Inv, hd] at hinv0
    rcases StorageInv.data hinv0 |>.processItem_cases hp with
      ⟨-, rfl, rfl⟩ | ⟨r, m, r', wrote, size, free, p, index, file, log, hi, rfl⟩
    · refine hnone (.of_eq rfl rfl rfl) (by rintro ⟨⟩) ?_
      rw [hd]
      exact List.subset_cons_self _ _
    · obtain ⟨iw, slot, rest, hrec, -, hlog⟩ := StorageInv.itemRecords hinv0 hok.1 hi
      have hinv' := (StorageInv.itemDone hinv0 hok.1 hi).1
      refine ⟨wrote ++ iw, ?_, h.item hd hkeys hi hrec hinv'⟩
      rw [← hlog, hi.store]
      rfl
  | addFreeSpace r rest hd =>
    refine hnone (.of_eq rfl rfl rfl) (by rintro ⟨⟩) (List.nil_subset _)
  | endProcess hd =>
    rw [During, hd] at hok
    cases hok.2.2 rfl
  | defragmentFreeSpace order ha hd horder =>
    subst ha
    cases hok.2.1
  | restart ReallocSize forceStartup order store ha hd horder hi =>
    subst ha
    cases hok.2.1

end Crashes

/-! ## The record of an X that is relocated -/

/-- What is in the slot of a relocated X after a crash: the record from before, with its
blocks untouched, or the new one, with the new blocks. The slot is empty only if the X
had none before. -/
structure OldOrNew (sh : Shared) (f0 f : Files) (r : RecordIndex) (slot : ℕ × ℕ) (d : DREC)
    (bs : List Block) : Prop where
  record : ∀ d', (slot, d') ∈ f.records →
    ((slot, d') ∈ f0.records ∧ SameBlocks sh f0.data f.data d') ∨ (d' = d ∧ Intact sh f.data d bs)
  present : r.slot ≠ none → ∃ d', (slot, d') ∈ f.records

/-- The record `d` has been written to its slot, and stays there until the next `Process`. -/
structure Landed (sh : Shared) (f0 : Files) (ws : List FileWrite) (r : RecordIndex)
    (slot : ℕ × ℕ) (d : DREC) (bs : List Block) (t : Sys) : Prop where
  crash : ∀ f, CrashPoint Files.apply f0 ws f → OldOrNew sh f0 f r slot d bs
  record : (slot, d) ∈ t.store.files.records
  intact : Intact sh t.store.files.data d bs
  key : d.m_key ∉ t.disk.items.map WriteInfo.m_key
  flushing : t.disk.flushing = true

namespace Landed

variable {r : RecordIndex} {slot : ℕ × ℕ} {d : DREC} {bs : List Block}

/-- The record there is now is the only one in its slot. -/
theorem oldOrNew {f : Files} (hmem : (slot, d) ∈ f.records) (hbs : Intact sh f.data d bs) :
    OldOrNew sh f0 f r slot d bs where
  record d' hd' := by
    have heq : (slot, d') = (slot, d) := IndexInv.slot_unique hd' hmem rfl
    cases heq
    exact Or.inr ⟨rfl, hbs⟩
  present _ := ⟨d, hmem⟩

theorem same (h : Landed sh f0 ws r slot d bs s) (hfiles : t.store.files = s.store.files)
    (hflush : t.disk.flushing = true)
    (hitems : t.disk.items.map WriteInfo.m_key ⊆ s.disk.items.map WriteInfo.m_key) :
    Landed sh f0 ws r slot d bs t where
  crash := h.crash
  record := by
    rw [hfiles]
    exact h.record
  intact := by
    rw [hfiles]
    exact h.intact
  key hmem := h.key (hitems hmem)
  flushing := hflush

section Item

variable {cfg : DiskCfg} {item : WriteInfo} {items : List WriteInfo} {toAdd : List Region}
  {store : Storage} {ry r' : RecordIndex} {m : Blman} {other : List Region}
  {wrote iw : List FileWrite} {size : Int} {free : FreeSpaceBlockMap} {p : Int}
  {index : IndexBlock} {file : IndexFile} {log : List FileWrite} {sy : ℕ × ℕ}
  {rest : List ((ℕ × ℕ) × DREC)}

/-- The item of another X. -/
theorem other_item (h : Landed sh f0 ws r slot d bs s) (hc : Crashes sh f0 ws s)
    (hd : s.disk = .writing (item :: items) toAdd)
    (hi : ItemDone sh cfg s.store item.m_key ry m other store r' wrote size free p index file log)
    (hrec : ItemRecords s.store item.m_key ry r' (DataFile.blocksAt p m.blockCount) file iw sy rest) :
    Landed sh f0 (ws ++ (wrote ++ iw)) r slot d bs
      ⟨store, s.lru, .writing items (toAdd ++ givenUp ry), s.removing⟩ := by
  have hkey := h.key
  rw [hd] at hkey
  obtain ⟨hne, hitems⟩ := not_or.mp fun hor => hkey (List.mem_cons.mpr hor)
  obtain ⟨hrest, hfile⟩ := hrec.of_key_ne h.record hne
  have hnew : (slot, d) ∈ store.files.records := by
    rw [hi.store]
    exact hfile
  refine ⟨?_, hnew, h.intact.onlyIn hi.onlyIn (hrec.apart _ hrest), hitems, rfl⟩
  intro f hf
  rcases CrashPoint.append.mp hf with hf | hf
  · exact h.crash f hf
  · rw [← hc.files] at hf
    obtain ⟨honly, hindex⟩ := hi.crashPoint hrec.writes hf
    refine oldOrNew ?_ (h.intact.onlyIn honly (hrec.apart _ hrest))
    rcases hindex with hindex | rfl
    · rw [Files.records, hindex]
      exact h.record
    · exact hnew

/-- The item of the X itself. -/
theorem of_item {lost : List ((ℕ × ℕ) × Region)} (hc : Crashes sh f0 ws s)
    (hf0 : FilesOk sh f0) (hinv : s.Inv sh lost)
    (hd : s.disk = .writing (item :: items) toAdd)
    (hkeys : item.m_key ∉ items.map WriteInfo.m_key)
    (hi : ItemDone sh cfg s.store item.m_key ry m other store r' wrote size free p index file log)
    (hrec : ItemRecords s.store item.m_key ry r' (DataFile.blocksAt p m.blockCount) file iw sy rest)
    (hrel : ry.relocateBlocks = true) :
    Landed sh f0 (ws ++ (wrote ++ iw)) ry sy (r'.toDREC item.m_key) m.clearDirtyFlags.blocks
      ⟨store, s.lru, .writing items (toAdd ++ givenUp ry), s.removing⟩ := by
  have hm := (hinv.data.entry _ ry hi.lookup).manager m hi.manager
  have hnew : (sy, r'.toDREC item.m_key) ∈ store.files.records := by
    rw [hi.store]
    exact hrec.after.mem_iff.mpr List.mem_cons_self
  refine ⟨?_, hnew, hi.intact hm, hkeys, rfl⟩
  intro f hf
  rw [CrashPoint.append, ← hc.files] at hf
  cases hs : ry.slot with
  | none =>
    -- the slot was not in use, so it is empty, or as it was before the deletions
    have hfresh := hrec.fresh hs
    have hempty : ∀ d', (sy, d') ∈ f.records → CrashPoint Files.apply f0 ws f →
        (sy, d') ∈ f0.records ∧ SameBlocks sh f0.data f.data d' := by
      intro d' hd' hf
      obtain ⟨hmem, hdata⟩ := hc.unused f hf _ hd' hfresh
      obtain ⟨bs, hbs⟩ := hf0.intact _ hmem
      refine ⟨hmem, bs, hbs, ?_⟩
      rw [hdata]
      exact hbs
    rcases hf with hf | hf
    · exact ⟨fun d' hd' => Or.inl (hempty d' hd' hf), fun hne => absurd hs hne⟩
    · obtain ⟨-, hindex | rfl⟩ := hi.crashPoint hrec.writes hf
      · refine ⟨fun d' hd' => ?_, fun hne => absurd hs hne⟩
        rw [Files.records, hindex] at hd'
        exact absurd (List.mem_map.mpr ⟨_, hd', rfl⟩) hfresh
      · exact oldOrNew hnew (hi.intact hm)
  | some slot =>
    obtain rfl := hrec.stays slot hs
    have hwait := hc.waiting item.m_key (by rw [hd]; exact List.mem_cons_self) ry slot hi.lookup hs
    have hmem0 := (hwait f0 CrashPoint.start).1
    obtain ⟨hmem, hsame⟩ := hwait _ hc.now
    have hold : (slot, ry.toDREC item.m_key) ∈ f.records →
        SameBlocks sh f0.data f.data (ry.toDREC item.m_key) →
        OldOrNew sh f0 f ry slot (r'.toDREC item.m_key) m.clearDirtyFlags.blocks := by
      intro hrecord hblocks
      refine ⟨fun d' hd' => ?_, fun _ => ⟨_, hrecord⟩⟩
      have heq : (slot, d') = (slot, ry.toDREC item.m_key) :=
        IndexInv.slot_unique hd' hrecord rfl
      cases heq
      exact Or.inl ⟨hmem0, hblocks⟩
    rcases hf with hf | hf
    · exact hold (hwait f hf).1 (hwait f hf).2
    · obtain ⟨honly, hindex | rfl⟩ := hi.crashPoint hrec.writes hf
      · -- the new place is not the old one
        have happart : ry.region.Apart (DataFile.blocksAt p m.blockCount) := by
          obtain ⟨bs, hbs, -⟩ := hsame
          have hstart := (DataFile.fread_eq_some.mp hbs.stored.read).1.1
          have hstart' : 0 ≤ ry.m_recordStart := hstart
          have hgiven : givenUp ry = [ry.region] := by
            rw [givenUp, if_pos hrel, usedRegion, if_pos (by omega)]
          have ht := hi.placed.tiles
          rw [hgiven] at ht
          have happ := (List.pairwise_append.mp ht.apart).2.1
          exact (List.pairwise_cons.mp happ).1 _ List.mem_cons_self
        refine hold ?_ (hsame.onlyIn honly happart)
        rw [Files.records, hindex]
        exact hmem
      · exact oldOrNew hnew (hi.intact hm)

end Item

end Landed

/-! ## Runs -/

/-- A state of one `Process` that began at `s0` and has made the calls `ws`. -/
structure InProcess (sh : Shared) (s0 : Sys) (ws : List FileWrite) (t : Sys) : Prop where
  writes : t.store.trace.writes = s0.store.trace.writes ++ ws
  crashes : Crashes sh s0.store.files ws t
  inv : ∃ lost, t.Inv sh lost
  queue : t.QInv

namespace InProcess

variable {s0 : Sys} {a : Action}

theorem start (h : (server sh).Reach Small s0) (hd : s0.disk = .idle) :
    InProcess sh s0 [] s0 := by
  obtain ⟨lost, hinv⟩ := reach_inv h
  exact ⟨(List.append_nil _).symm, Crashes.start hinv hd, ⟨lost, hinv⟩, reach_queue h⟩

theorem move (h : InProcess sh s0 ws s) (hok : During s a t) (hm : Move sh s a t) :
    ∃ ws', t.store.trace.writes = s.store.trace.writes ++ ws' ∧ InProcess sh s0 (ws ++ ws') t := by
  obtain ⟨lost, hinv⟩ := h.inv
  obtain ⟨ws', hwrites, hcrash⟩ := h.crashes.move hinv h.queue.2 hok hm
  refine ⟨ws', hwrites, ?_, hcrash, hinv.move hok.1 hm, h.queue.move hok.2.1 hm⟩
  rw [hwrites, h.writes, List.append_assoc]

theorem steps (h : InProcess sh s0 ws s) (hst : (server sh).Steps During s t) :
    ∃ ws', InProcess sh s0 ws' t := by
  refine hst.invariant (fun t => ∃ ws', InProcess sh s0 ws' t) ?_ ⟨ws, h⟩
  rintro s a t ⟨ws', h'⟩ hok hs
  obtain ⟨ws2, -, h2⟩ := h'.move hok (step_move hs)
  exact ⟨_, h2⟩

end InProcess

namespace Landed

variable {s0 : Sys} {a : Action} {r : RecordIndex} {slot : ℕ × ℕ} {d : DREC} {bs : List Block}

theorem move (h : Landed sh s0.store.files ws r slot d bs s) (hp : InProcess sh s0 ws s)
    (hok : During s a t) (hm : Move sh s a t) :
    ∃ ws', t.store.trace.writes = s.store.trace.writes ++ ws'
      ∧ Landed sh s0.store.files (ws ++ ws') r slot d bs t := by
  have hnone : ∀ {t : Sys}, t.store.trace.writes = s.store.trace.writes →
      t.store.files = s.store.files → t.disk.flushing = true →
      t.disk.items.map WriteInfo.m_key ⊆ s.disk.items.map WriteInfo.m_key →
      ∃ ws', t.store.trace.writes = s.store.trace.writes ++ ws'
        ∧ Landed sh s0.store.files (ws ++ ws') r slot d bs t := by
    intro t hwrites hfiles hflush hitems
    refine ⟨[], by rw [hwrites, List.append_nil], ?_⟩
    rw [List.append_nil]
    exact h.same hfiles hflush hitems
  have hflush := h.flushing
  cases hm with
  | worker store lru removing he hr hw =>
    exact hnone he.sameRecords.writes he.sameRecords.files hflush (List.Subset.refl _)
  | remove x ha hx => exact hnone rfl rfl hflush (List.Subset.refl _)
  | beginProcess order rs store hd hg =>
    rw [hd] at hflush
    cases hflush
  | deleteItem cacheSize r rest store hd hi =>
    rw [hd] at hflush
    cases hflush
  | getItems order items store hd hg =>
    rw [hd] at hflush
    cases hflush
  | processItem cfg item items toAdd toAdd' store hd hitem =>
    obtain ⟨lost, hinv⟩ := hp.inv
    rw [Inv, hd] at hinv
    rcases StorageInv.data hinv |>.processItem_cases hitem with
      ⟨-, rfl, rfl⟩ | ⟨ry, m, r', wrote, size, free, p, index, file, log, hi, rfl⟩
    · refine hnone rfl rfl rfl ?_
      rw [hd]
      exact List.subset_cons_self _ _
    · obtain ⟨iw, sy, rest, hrec, -, hlog⟩ := StorageInv.itemRecords hinv hok.1 hi
      refine ⟨wrote ++ iw, ?_, h.other_item hp.crashes hd hi hrec⟩
      rw [← hlog, hi.store]
      rfl
  | addFreeSpace r rest hd => exact hnone rfl rfl rfl (List.nil_subset _)
  | endProcess hd =>
    rw [During, hd] at hok
    cases hok.2.2 rfl
  | defragmentFreeSpace order ha hd horder =>
    rw [hd] at hflush
    cases hflush
  | restart ReallocSize forceStartup order store ha hd horder hi =>
    rw [hd] at hflush
    cases hflush

theorem steps (h : Landed sh s0.store.files ws r slot d bs s) (hp : InProcess sh s0 ws s)
    (hst : (server sh).Steps During s t) :
    ∃ ws', InProcess sh s0 ws' t ∧ Landed sh s0.store.files ws' r slot d bs t := by
  refine hst.invariant
    (fun t => ∃ ws', InProcess sh s0 ws' t ∧ Landed sh s0.store.files ws' r slot d bs t) ?_
    ⟨ws, hp, h⟩
  rintro s a t ⟨ws', hp', h'⟩ hok hs
  have hm := step_move hs
  obtain ⟨ws2, hw2, hp2⟩ := hp'.move hok hm
  obtain ⟨ws3, hw3, h3⟩ := h'.move hp' hok hm
  have heq : ws3 = ws2 := List.append_cancel_left (hw3.symm.trans hw2)
  rw [heq] at h3
  exact ⟨_, hp2, h3⟩

end Landed

/-- Between `s` and `t` the disk thread has written `x` to a new place: `r` and `m` are its
entry and its blocks before, and `r'` is the entry after. -/
structure Relocated (sh : Shared) (s t : Sys) (x : UInt64) (r r' : RecordIndex) (m : Blman) :
    Prop where
  relocate : r.relocateBlocks = true
  manager : r.m_pBlockManager = some m
  handled : ∃ u v cfg item items toAdd, (server sh).Steps During s u
    ∧ u.disk = .writing (item :: items) toAdd ∧ item.m_key = x
    ∧ u.store.m_dataIndexes.lookup x = some r
    ∧ u.step sh (.processItem cfg) = some v ∧ During u (.processItem cfg) v
    ∧ v.store.m_dataIndexes.lookup x = some r' ∧ (server sh).Steps During v t

theorem InProcess.relocated {x : UInt64} {r r' : RecordIndex} {m : Blman} {s0 : Sys}
    (h : InProcess sh s0 ws t) (hs0 : InProcess sh s0 [] s0) (hrel : Relocated sh s0 t x r r' m) :
    ∃ slot, r'.slot = some slot ∧ (∀ s, r.slot = some s → s = slot)
      ∧ ∀ f, CrashPoint Files.apply s0.store.files ws f →
        OldOrNew sh s0.store.files f r slot (r'.toDREC x) m.clearDirtyFlags.blocks := by
  obtain ⟨u, v, cfg, item, items, toAdd, hsu, hd, rfl, hlook, hstep, hok, hlook', hvt⟩ := hrel.handled
  obtain ⟨wsu, hu⟩ := hs0.steps hsu
  obtain ⟨wsv, hwv, hv⟩ := hu.move hok (step_move hstep)
  obtain ⟨lost, hinv⟩ := hu.inv
  have hq := hu.queue.2
  rw [hd] at hq
  rw [step, hd] at hstep
  obtain ⟨⟨store, toAdd'⟩, hitem, hstep⟩ := Option.bind_eq_some_iff.mp hstep
  cases hstep
  have hinv0 := hinv
  rw [Inv, hd] at hinv0
  rcases StorageInv.data hinv0 |>.processItem_cases hitem with
    ⟨hnone, -, -⟩ | ⟨r0, m0, r1, wrote, size, free, p, index, file, log, hi, rfl⟩
  · rw [hlook] at hnone
    cases hnone
  · have hr0 : r0 = r := Option.some.inj (hi.lookup.symm.trans hlook)
    subst hr0
    have hm0 : m0 = m := Option.some.inj (hi.manager.symm.trans hrel.manager)
    subst hm0
    obtain ⟨iw, slot, rest, hrec, -, hlog⟩ := StorageInv.itemRecords hinv0 hok.1 hi
    have hf0 : FilesOk sh s0.store.files := by
      obtain ⟨lost0, hinv0⟩ := hs0.inv
      exact StorageInv.filesOk hinv0
    have hland := Landed.of_item hu.crashes hf0 hinv hd (List.nodup_cons.mp hq.nodup).1 hi hrec
      hrel.relocate
    have hwsv : wsv = wrote ++ iw := by
      refine List.append_cancel_left (hwv.symm.trans ?_)
      rw [← hlog, hi.store]
      rfl
    rw [← hwsv] at hland
    obtain ⟨wst, ht, hlandt⟩ := hland.steps hv hvt
    have hws : wst = ws := List.append_cancel_left (ht.writes.symm.trans h.writes)
    subst hws
    -- the entry in the main index is that of the item, but for a flag
    have hentry : r' = clearQueued u.store item.m_key r1 := by
      rw [hi.store] at hlook'
      exact (Option.some.inj ((AList.lookup_insert _).symm.trans hlook')).symm
    have hplace := ItemDone.clearQueued_place u.store item.m_key r1
    have hd' : r'.toDREC item.m_key = r1.toDREC item.m_key := by
      rw [hentry, clearQueued]
      split
      all_goals rfl
    refine ⟨slot, ?_, hrec.stays, ?_⟩
    · rw [hentry, hplace.slot_eq]
      exact hrec.slot_eq
    · rw [hd']
      exact hlandt.crash

/-- **A crash during a flush leaves whole records.** -/
theorem crash_leaves_records {s t : Sys} (h : (server sh).Reach Small s) (hd : s.disk = .idle)
    (hst : (server sh).Steps During s t) :
    ∃ ws, t.store.trace.writes = s.store.trace.writes ++ ws
      ∧ t.store.files = ws.foldl Files.apply s.store.files
      ∧ ∀ f, CrashPoint Files.apply s.store.files ws f → f.Whole
        ∧ ∀ x r r' m, Relocated sh s t x r r' m →
          ∃ slot, r'.slot = some slot ∧ (∀ s, r.slot = some s → s = slot)
            ∧ OldOrNew sh s.store.files f r slot (r'.toDREC x) m.clearDirtyFlags.blocks := by
  have hstart := InProcess.start h hd
  obtain ⟨ws, hend⟩ := hstart.steps hst
  refine ⟨ws, hend.writes, hend.crashes.files, fun f hf => ⟨hend.crashes.whole f hf, ?_⟩⟩
  intro x r r' m hrel
  obtain ⟨slot, hslot, hstay, hold⟩ := hend.relocated hstart hrel
  exact ⟨slot, hslot, hstay, hold f hf⟩

/-- The disk thread has come to an X in the index file, which is to be relocated. -/
def relocatesNext (x : UInt64) (u : Sys) : Bool :=
  match u.disk, u.store.m_dataIndexes.lookup x with
  | .writing (item :: _) _, some r =>
    decide (item.m_key = x) && r.relocateBlocks && r.m_pBlockManager.isSome && r.slot.isSome
  | _, _ => false

theorem of_relocatesNext {x : UInt64} (h : s.relocatesNext x = true) :
    ∃ item items toAdd r m, s.disk = .writing (item :: items) toAdd ∧ item.m_key = x
      ∧ s.store.m_dataIndexes.lookup x = some r ∧ r.relocateBlocks = true
      ∧ r.m_pBlockManager = some m ∧ r.slot ≠ none := by
  rw [relocatesNext] at h
  split at h
  · next item items toAdd r hd hr =>
    simp only [Bool.and_eq_true, decide_eq_true_eq] at h
    obtain ⟨⟨⟨hkey, hrel⟩, hm⟩, hslot⟩ := h
    obtain ⟨m, hm⟩ := Option.isSome_iff_exists.mp hm
    exact ⟨item, items, toAdd, r, m, hd, hkey, hr, hrel, hm, Option.isSome_iff_ne_none.mp hslot⟩
  · cases h

/-- The test of `During` on a run. -/
def duringTest (sh : Shared) (s : Sys) (a : Action) : Bool :=
  decide (s.store.files.index.length < 2 ^ 20) && a.plain
    && ((s.step sh a).all fun t => !s.disk.flushing || t.disk.flushing)

theorem during_of_test {a : Action} (h : duringTest sh s a = true) (hs : s.step sh a = some t) :
    During s a t := by
  rw [duringTest, hs, Bool.and_eq_true, Bool.and_eq_true] at h
  obtain ⟨⟨hsmall, hplain⟩, hflush⟩ := h
  refine ⟨of_decide_eq_true (p := s.store.files.index.length < 2 ^ 20) hsmall, hplain, fun hf => ?_⟩
  have hor : (!s.disk.flushing || t.disk.flushing) = true := hflush
  rw [hf] at hor
  exact hor

/-- One X relocated, behind the erasure of another. -/
theorem crash_leaves_records_relocated :
    ∃ s t r r' m, Relocated Shared.plain s t 7 r r' m ∧ r.slot ≠ none
      ∧ ∃ ws, t.store.trace.writes = s.store.trace.writes ++ ws
        ∧ ∀ f, CrashPoint Files.apply s.store.files ws f → f.Whole
          ∧ ∃ slot, r'.slot = some slot ∧ (∀ s, r.slot = some s → s = slot)
            ∧ OldOrNew Shared.plain s.store.files f r slot (r'.toDREC 7) m.clearDirtyFlags.blocks := by
  have hrun : (fresh.bind fun s => (server Shared.plain).run smallTest s
      [put 0 7 1,
        put 0 8 1,
        .beginProcess [], .getItems [7, 8], .processItem ⟨4096, 64⟩, .processItem ⟨4096, 64⟩,
        .endProcess, .defragmentData 0 (fun _ => plainCfg 1000 5) 7, .deleteData 0 8,
        .remove 8]).any (fun s => s.idle
          && ((server Shared.plain).run (duringTest Shared.plain) s
            [.beginProcess [8], .deleteItem 64, .getItems [7]]).any fun u =>
              u.relocatesNext 7 && duringTest Shared.plain u (.processItem ⟨4096, 64⟩)
                && (u.step Shared.plain (.processItem ⟨4096, 64⟩)).any fun v =>
                  (v.store.m_dataIndexes.lookup 7).isSome) = true := by
    decide +kernel
  obtain ⟨s0, s, hs0, hsteps, hs⟩ := exists_run _ small_of_test hrun
  obtain ⟨hidle, hs⟩ := Bool.and_eq_true_iff.mp hs
  have hreach := (Machine.Reach.init s0 hs0).steps hsteps
  obtain ⟨u, hu, hnext⟩ := Option.any_eq_true .. |>.mp hs
  obtain ⟨hnext, hlook⟩ := Bool.and_eq_true_iff.mp hnext
  obtain ⟨hnext, hok⟩ := Bool.and_eq_true_iff.mp hnext
  obtain ⟨v, hv, hlook⟩ := Option.any_eq_true .. |>.mp hlook
  obtain ⟨r', hr'⟩ := Option.isSome_iff_exists.mp hlook
  have hsu : (server Shared.plain).Steps During s u :=
    Machine.Steps.of_run (fun _ _ _ h => during_of_test h) hu
  obtain ⟨item, items, toAdd, r, m, hd, hkey, hr, hrel, hm, hslot⟩ := of_relocatesNext hnext
  have huv := during_of_test hok hv
  have hst := hsu.trans (.single huv hv)
  have hrelocated : Relocated Shared.plain s v 7 r r' m :=
    ⟨hrel, hm, u, v, _, item, items, toAdd, hsu, hd, hkey, hr, hv, huv, hr', .refl v⟩
  obtain ⟨ws, hws, -, hall⟩ := crash_leaves_records hreach (disk_of_idle hidle) hst
  refine ⟨s, v, r, r', m, hrelocated, hslot, ws, hws, fun f hf => ⟨(hall f hf).1, ?_⟩⟩
  exact (hall f hf).2 7 r r' m hrelocated

end Sys

end TransDB
