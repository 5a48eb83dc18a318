/-
An X that waits to be written is queued.

`eRIF_InDiskWriteQueue` says of an X in the main index that what it holds in memory
has not been written. `Queue` sets it and puts the X in the queue, and the disk
thread clears it when it writes the X. The one thing that takes an X out of the
queue without writing it is the `Remove` that ends a `DeleteData`, and it runs
without the accessor of the X, so the X can have been created again by then.
-/
import TransDB.SystemInv

set_option autoImplicit false

namespace TransDB

open DiskWriter Storage

/-! ## The data file, without the index file -/

/-- The action does not read the index file again. -/
def Action.plain : Action → Bool
  | .defragmentFreeSpace _ => false
  | .restart _ _ _ => false
  | _ => true

/-- The X of a `Remove`. -/
def Action.removes : Action → Option UInt64
  | .remove x => some x
  | _ => none

theorem DataInv.effects {sh : Shared} {allowed : Allowed} {st st' : Storage}
    {deleting : List RecordIndex} {toAdd lost : List Region} (h : DataInv st deleting toAdd lost)
    (he : Effects sh allowed st st') : ∃ lost', DataInv st' deleting toAdd lost' := by
  refine he.invariant (fun st => ∃ lost, DataInv st deleting toAdd lost) ?_ ⟨lost, h⟩
  rintro st1 st2 ⟨lost1, h1⟩ he1
  rcases he1.sameHeld with hs | ⟨x, r, -, hx, rfl⟩
  · exact ⟨lost1, h1.effect he1 ((hs.held usedRegion_place deleting).symm.append_right _)⟩
  · refine ⟨replaced usedRegion st1 x ++ lost1, h1.effect he1 ?_⟩
    rw [← List.append_assoc]
    exact (held_delete sh usedRegion_place hx).append_right _

namespace Sys

variable {sh : Shared}

/-- The division of the data file, with what the disk thread holds. -/
def DInv (s : Sys) (lost : List Region) : Prop :=
  DataInv s.store s.disk.deleted s.disk.toAdd lost

/-- The outcome of an item in a state of the server. -/
theorem DInv.item {s : Sys} {lost : List Region} (h : s.DInv lost) {cfg : DiskCfg}
    {item : WriteInfo} {items : List WriteInfo} {toAdd toAdd' : List Region} {store : Storage}
    (hd : s.disk = .writing (item :: items) toAdd)
    (hp : DiskWriter.processItem sh cfg s.store toAdd item = some (store, toAdd')) :
    (s.store.m_dataIndexes.lookup item.m_key = none ∧ store = s.store ∧ toAdd' = toAdd)
      ∨ ∃ r m r' ws size free p index file log,
        ItemDone sh cfg s.store item.m_key r m (others s.store item.m_key [] toAdd lost) store r' ws
          size free p index file log
        ∧ toAdd' = toAdd ++ givenUp r := by
  rw [DInv, hd] at h
  have h' : DataInv s.store [] toAdd lost := h
  exact h'.processItem_cases hp

/-- The data file is divided up for an index file of any size, as long as it is not
read again. -/
theorem DInv.move {s t : Sys} {a : Action} {lost : List Region} (h : s.DInv lost)
    (ha : a.plain = true) (hm : Move sh s a t) : ∃ lost', t.DInv lost' := by
  cases hm with
  | worker store lru removing he hr => exact DataInv.effects h he
  | remove x ha' hx =>
    have h' : DataInv s.store s.disk.deleted s.disk.toAdd lost := h
    exact ⟨lost, h'.congr rfl rfl rfl rfl rfl⟩
  | beginProcess order rs store hd hg =>
    rw [DInv, hd] at h
    exact ⟨lost, DataInv.getDeleted h hg⟩
  | deleteItem cacheSize r rest store hd hi =>
    rw [DInv, hd] at h
    exact ⟨lost, DataInv.deleteItem h hi⟩
  | getItems order items store hd hg =>
    rw [DInv, hd] at h
    obtain ⟨-, -, rfl⟩ := getItems_cases hg
    have h' : DataInv s.store [] [] lost := h
    exact ⟨lost, h'.congr rfl rfl rfl rfl rfl⟩
  | processItem cfg item items toAdd toAdd' store hd hp =>
    have hcases := h.item hd hp
    rw [DInv, hd] at h
    have h' : DataInv s.store [] toAdd lost := h
    rcases hcases with ⟨-, rfl, rfl⟩ | ⟨r, m, r', ws, size, free, p, index, file, log, hi, rfl⟩
    · exact ⟨lost, h'⟩
    · exact ⟨lost, h'.itemDone hi⟩
  | addFreeSpace r rest hd =>
    rw [DInv, hd] at h
    exact ⟨lost, DataInv.addFreeSpace h⟩
  | endProcess hd =>
    rw [DInv, hd] at h
    exact ⟨lost, h⟩
  | defragmentFreeSpace order ha' hd horder =>
    subst ha'
    cases ha
  | restart ReallocSize forceStartup order store ha' hd horder hi =>
    subst ha'
    cases ha

/-- A state right after a successful `Init`, on empty files or on files that a server
has left while nothing was going on. -/
inductive AfterInit (sh : Shared) : Sys → Prop
  | empty (s : Sys) (h : Started s) : AfterInit sh s
  | files (s t : Sys) (ReallocSize : Int) (forceStartup : Bool) (order : List ((ℕ × ℕ) × DREC))
    (h : (server sh).Reach Small s)
    (hs : s.step sh (.restart ReallocSize forceStartup order) = some t) : AfterInit sh t

/-- The server from one `Init` on. -/
def life (sh : Shared) : Machine Sys Action where
  init := AfterInit sh
  step := step sh

/-- What `Init` leaves. -/
theorem AfterInit.cases {s : Sys} (h : AfterInit sh s) :
    ∃ order files log, s = ⟨startOn order files log, fun _ => LRUCache.empty, .idle, []⟩
      ∧ FilesOk sh files ∧ order.Perm (IndexBlock.fileEntries 0 files.index) := by
  cases h with
  | empty s h =>
    obtain ⟨ReallocSize, store, hinit, rfl⟩ := h
    obtain ⟨files', log, rfl, hf, hindex, -⟩ :=
      Init_cases (FilesOk.empty sh) (List.Perm.refl _) hinit
    refine ⟨[], files', log, rfl, hf, ?_⟩
    rw [hindex]
    exact List.Perm.refl _
  | files s t ReallocSize forceStartup order h hs =>
    obtain ⟨lost, hinv⟩ := reach_inv h
    obtain ⟨-, horder, store, hinit, rfl⟩ := step_restart hs
    obtain ⟨files', log, rfl, hf, hindex, -⟩ :=
      Init_cases (StorageInv.filesOk hinv) horder hinit
    rw [← hindex] at horder
    exact ⟨order, files', log, rfl, hf, horder⟩

theorem AfterInit.dinv {s : Sys} (h : AfterInit sh s) : ∃ lost, s.DInv lost := by
  obtain ⟨order, files, log, rfl, hf, horder⟩ := h.cases
  obtain ⟨lost, hinv⟩ := startOn_inv hf horder log
  exact ⟨_, hinv.data⟩

end Sys

/-! ## The queue -/

/-- What the flags of the entries say; `items` is what is left of the batch. -/
structure QueueInv (st : Storage) (items : List WriteInfo) : Prop where
  key : ∀ x w, st.m_pQueue.lookup x = some w → w.m_key = x
  nodup : (items.map WriteInfo.m_key).Nodup
  flag : ∀ x r, st.m_dataIndexes.lookup x = some r →
    x ∈ st.m_pQueue ∨ x ∈ items.map WriteInfo.m_key → r.inDiskWriteQueue = true
  manager : ∀ x r, st.m_dataIndexes.lookup x = some r → r.inDiskWriteQueue = true →
    r.m_pBlockManager ≠ none
  relocate : ∀ x r, st.m_dataIndexes.lookup x = some r → r.relocateBlocks = true →
    r.inDiskWriteQueue = true

/-- An X with its flag clear has no place to give up. -/
theorem QueueInv.not_relocating {st : Storage} {items : List WriteInfo} {x : UInt64}
    {r : RecordIndex} (h : QueueInv st items) (hx : st.m_dataIndexes.lookup x = some r)
    (hf : r.inDiskWriteQueue = false) : r.relocateBlocks = false := by
  by_contra hrel
  have hflag := h.relocate x r hx (by rwa [Bool.not_eq_false] at hrel)
  rw [hf] at hflag
  cases hflag

/-- What an effect does to the queue: an X is added when it is flagged. -/
structure Queues (st st' : Storage) : Prop where
  key : ∀ x w, st'.m_pQueue.lookup x = some w → st.m_pQueue.lookup x = some w ∨ w.m_key = x
  keep : ∀ x, x ∈ st.m_pQueue → x ∈ st'.m_pQueue
  new : ∀ x r, st'.m_dataIndexes.lookup x = some r → x ∈ st'.m_pQueue →
    x ∈ st.m_pQueue ∨ r.inDiskWriteQueue = true
  flagged : ∀ x r', st'.m_dataIndexes.lookup x = some r' → r'.inDiskWriteQueue = true →
    (∃ r, st.m_dataIndexes.lookup x = some r ∧ r.inDiskWriteQueue = true) ∨ x ∈ st'.m_pQueue

section Queues

variable {st st' : Storage} {x : UInt64} {r r' : RecordIndex}

/-- The queue stays, and so does the flag of the one entry that changes. -/
theorem Queues.same (hq : st'.m_pQueue = st.m_pQueue)
    (hlive : st'.m_dataIndexes = st.m_dataIndexes.insert x r')
    (hx : st.m_dataIndexes.lookup x = some r)
    (hflag : r'.inDiskWriteQueue = r.inDiskWriteQueue) : Queues st st' := by
  refine ⟨?_, ?_, ?_, ?_⟩
  · intro y w hy
    rw [hq] at hy
    exact Or.inl hy
  · intro y hy
    rw [hq]
    exact hy
  · intro y ry _ hmem
    rw [hq] at hmem
    exact Or.inl hmem
  · intro y ry hy hf
    rw [hlive] at hy
    rcases Effect.lookup_insert_cases hy with ⟨rfl, rfl⟩ | ⟨-, hold⟩
    · exact Or.inl ⟨r, hx, by rw [← hflag]; exact hf⟩
    · exact Or.inl ⟨ry, hold, hf⟩

/-- `Queue` adds the X of the entry that changes. -/
theorem Queues.add {pos : Int} (hq : st'.m_pQueue = st.m_pQueue.insert x ⟨x, pos⟩)
    (hlive : st'.m_dataIndexes = st.m_dataIndexes.insert x r')
    (hflag : r'.inDiskWriteQueue = true) : Queues st st' := by
  refine ⟨?_, ?_, ?_, ?_⟩
  · intro y w hy
    rw [hq] at hy
    by_cases hyx : y = x
    · subst hyx
      rw [AList.lookup_insert] at hy
      cases hy
      exact Or.inr rfl
    · rw [AList.lookup_insert_ne hyx] at hy
      exact Or.inl hy
  · intro y hy
    rw [hq]
    exact (AList.mem_insert _).mpr (Or.inr hy)
  · intro y ry hy hmem
    rw [hq] at hmem
    rw [hlive] at hy
    rcases Effect.lookup_insert_cases hy with ⟨rfl, rfl⟩ | ⟨hne, -⟩
    · exact Or.inr hflag
    · exact Or.inl (((AList.mem_insert _).mp hmem).resolve_left hne)
  · intro y ry hy hf
    rw [hlive] at hy
    rcases Effect.lookup_insert_cases hy with ⟨rfl, rfl⟩ | ⟨-, hold⟩
    · refine Or.inr ?_
      rw [hq]
      exact (AList.mem_insert _).mpr (Or.inl rfl)
    · exact Or.inl ⟨ry, hold, hf⟩

theorem Effect.queues {sh : Shared} {allowed : Allowed} (he : Effect sh allowed st st') :
    Queues st st' := by
  cases he with
  | load x r bs m hx hmgr hrel hread hm => exact Queues.same rfl rfl hx rfl
  | edit x r m e hx hm hok ha =>
    by_cases hq : e.queued = true
    · have hqueue : (e.apply st x r).m_pQueue = st.m_pQueue.insert x ⟨x, r.m_recordStart⟩ := by
        rw [Edit.apply_queue, if_pos hq]
      refine Queues.add hqueue Edit.apply_dataIndexes ?_
      · show (r.inDiskWriteQueue || e.queued) = true
        rw [hq, Bool.or_true]
    · refine Queues.same ?_ Edit.apply_dataIndexes hx ?_
      · rw [Edit.apply_queue, if_neg hq]
      · show (r.inDiskWriteQueue || e.queued) = _
        rw [Bool.eq_false_iff.mpr hq, Bool.or_false]
  | create x m blockCount hx hm => exact Queues.add rfl rfl rfl
  | delete x r hx ha =>
    refine ⟨fun y w hy => Or.inl hy, fun y hy => hy, fun y ry _ hmem => Or.inl hmem, ?_⟩
    intro y ry hy hf
    have hlook : (st.m_dataIndexes.erase x).lookup y = some ry := hy
    by_cases hyx : y = x
    · subst hyx
      rw [AList.lookup_erase] at hlook
      cases hlook
    · rw [AList.lookup_erase_ne hyx] at hlook
      exact Or.inl ⟨ry, hlook, hf⟩
  | evict x r m hx hm hidle =>
    rw [evict_some hm]
    exact Queues.same rfl rfl hx rfl

end Queues

namespace QueueInv

variable {sh : Shared} {allowed : Allowed} {st st' : Storage} {items : List WriteInfo}

theorem effect (h : QueueInv st items)
    (hok : ∀ x r, st.m_dataIndexes.lookup x = some r → EntryOk st.files.data r)
    (he : Effect sh allowed st st') : QueueInv st' items := by
  have hq := he.queues
  refine ⟨?_, h.nodup, ?_, ?_, ?_⟩
  · intro x w hx
    rcases hq.key x w hx with hold | hkey
    · exact h.key x w hold
    · exact hkey
  · intro x r' hx hmem
    have hmem' : (x ∈ st.m_pQueue ∨ x ∈ items.map WriteInfo.m_key)
        ∨ r'.inDiskWriteQueue = true := by
      rcases hmem with hmem | hmem
      · rcases hq.new x r' hx hmem with hold | hf
        · exact Or.inl (Or.inl hold)
        · exact Or.inr hf
      · exact Or.inl (Or.inr hmem)
    rcases hmem' with hmem' | hf
    swap
    · exact hf
    have hentry := he.entry hx
    cases hr : st.m_dataIndexes.lookup x with
    | none =>
      rw [hr] at hentry
      cases hentry with
      | create m blockCount hm => rfl
    | some r =>
      have hf := h.flag x r hr hmem'
      rw [hr] at hentry
      cases hentry with
      | same _ => exact hf
      | load _ bs m hmgr hrel hread hm => exact hf
      | edit _ m e hm hok' ha =>
        show (r.inDiskWriteQueue || e.queued) = true
        rw [hf, Bool.true_or]
      | evict _ m hm hidle =>
        rw [hidle] at hf
        cases hf
  · intro x r' hx hf hnone
    have hentry := he.entry hx
    cases hr : st.m_dataIndexes.lookup x with
    | none =>
      rw [hr] at hentry
      cases hentry with
      | create m blockCount hm => cases hnone
    | some r =>
      rw [hr] at hentry
      cases hentry with
      | same _ => exact h.manager x _ hr hf hnone
      | load _ bs m hmgr hrel hread hm => cases hnone
      | edit _ m e hm hok' ha => cases hnone
      | evict _ m hm hidle =>
        have hf' : r.inDiskWriteQueue = true := hf
        rw [hidle] at hf'
        cases hf'
  · intro x r' hx hrel
    have hentry := he.entry hx
    cases hr : st.m_dataIndexes.lookup x with
    | none =>
      rw [hr] at hentry
      cases hentry with
      | create m blockCount hm => rfl
    | some r =>
      rw [hr] at hentry
      cases hentry with
      | same _ => exact h.relocate x _ hr hrel
      | load _ bs m hmgr hrel' hread hm => exact h.relocate x r hr hrel
      | edit _ m e hm hok' ha =>
        have hrel' : (r.relocateBlocks || e.relocate) = true := hrel
        show (r.inDiskWriteQueue || e.queued) = true
        rw [Bool.or_eq_true] at hrel' ⊢
        exact hrel'.imp (h.relocate x r hr) (hok' ((hok x r hr).manager m hm)).queued
      | evict _ m hm hidle => exact h.relocate x r hr hrel

theorem effects {deleting : List RecordIndex} {toAdd lost : List Region}
    (h : QueueInv st items) (hd : DataInv st deleting toAdd lost)
    (he : Effects sh allowed st st') : QueueInv st' items := by
  have hinv := he.invariant
    (fun st => (∃ lost, DataInv st deleting toAdd lost) ∧ QueueInv st items) ?_ ⟨⟨lost, hd⟩, h⟩
  · exact hinv.2
  · rintro st1 st2 ⟨⟨lost1, h1⟩, hq1⟩ he1
    exact ⟨DataInv.effects h1 (.single he1), hq1.effect h1.entry he1⟩

/-- Taking the queue makes it the batch. -/
theorem getItems {order : List UInt64} (h : QueueInv st [])
    (hg : DiskWriter.getItems st order = some (items, st')) :
    QueueInv st' items ∧ (items.map WriteInfo.m_key).Perm st.m_pQueue.keys := by
  obtain ⟨hp, rfl, rfl⟩ := Sys.getItems_cases hg
  have hkeys : (order.filterMap st.m_pQueue.lookup).map WriteInfo.m_key = order := by
    have hmem : ∀ x ∈ order, ∃ w, st.m_pQueue.lookup x = some w ∧ w.m_key = x := by
      intro x hx
      have hx' : x ∈ st.m_pQueue := AList.mem_keys.mpr (hp.mem_iff.mp hx)
      obtain ⟨w, hw⟩ := Option.isSome_iff_exists.mp (AList.lookup_isSome.mpr hx')
      exact ⟨w, hw, h.key x w hw⟩
    clear hp hg
    induction order with
    | nil => rfl
    | cons x xs ih =>
      obtain ⟨w, hw, hkey⟩ := hmem x List.mem_cons_self
      simp only [List.filterMap_cons, hw, List.map_cons, hkey]
      rw [ih fun y hy => hmem y (List.mem_cons_of_mem _ hy)]
  refine ⟨⟨?_, ?_, ?_, h.manager, h.relocate⟩, ?_⟩
  · intro x w hx
    cases hx
  · rw [hkeys]
    exact hp.nodup_iff.mpr st.m_pQueue.nodupKeys
  · intro x r hx hmem
    rw [hkeys] at hmem
    refine h.flag x r hx (Or.inl ?_)
    rcases hmem with hmem | hmem
    · exact absurd hmem (AList.notMem_empty x)
    · exact AList.mem_keys.mpr (hp.mem_iff.mp hmem)
  · rw [hkeys]
    exact hp

/-- A batch of which the first item has been handled, when its X is gone. -/
theorem tail {item : WriteInfo} (h : QueueInv st (item :: items)) : QueueInv st items where
  key := h.key
  nodup := (List.nodup_cons.mp h.nodup).2
  flag x r hx hmem := h.flag x r hx (hmem.imp_right (List.mem_cons_of_mem _))
  manager := h.manager
  relocate := h.relocate

/-- An item that has been written is flagged if it has been queued again. -/
theorem itemDone {cfg : DiskCfg} {item : WriteInfo} {r r' : RecordIndex} {m : Blman}
    {other : List Region} {ws : List FileWrite} {size : Int} {free : FreeSpaceBlockMap} {p : Int}
    {index : IndexBlock} {file : IndexFile} {log : List FileWrite}
    (h : QueueInv st (item :: items))
    (hi : ItemDone sh cfg st item.m_key r m other st' r' ws size free p index file log) :
    QueueInv st' items := by
  obtain ⟨offset, number, hr'⟩ := hi.entry
  have hstore := hi.store
  have hnotin := (List.nodup_cons.mp h.nodup).1
  have htail := h.tail
  subst hstore
  have hsplit : ∀ {x rx}, (st.itemDone item.m_key r r' ws size free index file
      log).m_dataIndexes.lookup x = some rx →
      x = item.m_key ∧ rx = clearQueued st item.m_key r'
        ∨ x ≠ item.m_key ∧ st.m_dataIndexes.lookup x = some rx := Effect.lookup_insert_cases
  refine ⟨h.key, htail.nodup, ?_, ?_, ?_⟩
  · intro x rx hx hmem
    rcases hsplit hx with ⟨rfl, rfl⟩ | ⟨-, hold⟩
    · have hin : item.m_key ∈ st.m_pQueue := hmem.resolve_right hnotin
      rw [clearQueued, if_pos hin, hr']
      exact h.flag _ r hi.lookup (Or.inl hin)
    · exact htail.flag x rx hold hmem
  · intro x rx hx hf
    rcases hsplit hx with ⟨rfl, rfl⟩ | ⟨-, hold⟩
    · rw [clearQueued, hr']
      split
      all_goals
        intro hnone
        cases hnone
    · exact htail.manager x rx hold hf
  · intro x rx hx hrel
    rcases hsplit hx with ⟨rfl, rfl⟩ | ⟨-, hold⟩
    · rw [clearQueued, hr'] at hrel
      split at hrel
      all_goals cases hrel
    · exact htail.relocate x rx hold hrel

/-- Taking an X out of the queue. -/
theorem remove (h : QueueInv st items) (x : UInt64) : QueueInv (Remove st x) items := by
  have hsub : ∀ y, y ∈ (Remove st x).m_pQueue → y ∈ st.m_pQueue :=
    fun y hy => ((AList.mem_erase).mp hy).2
  refine ⟨?_, h.nodup, fun y r hy hmem => h.flag y r hy (hmem.imp_left (hsub y)), h.manager,
    h.relocate⟩
  intro y w hy
  have hlook : (st.m_pQueue.erase x).lookup y = some w := hy
  by_cases hyx : y = x
  · subst hyx
    rw [AList.lookup_erase] at hlook
    cases hlook
  · rw [AList.lookup_erase_ne hyx] at hlook
    exact h.key y w hlook

/-- Only the two maps matter. -/
theorem congr (h : QueueInv st items) (hlive : st'.m_dataIndexes = st.m_dataIndexes)
    (hqueue : st'.m_pQueue = st.m_pQueue) : QueueInv st' items := by
  refine ⟨?_, h.nodup, ?_, ?_, ?_⟩
  · rw [hqueue]
    exact h.key
  · rw [hlive, hqueue]
    exact h.flag
  · rw [hlive]
    exact h.manager
  · rw [hlive]
    exact h.relocate

theorem startOn (order : List ((ℕ × ℕ) × DREC)) (files : Files) (log : List FileWrite) :
    QueueInv (startOn order files log) [] := by
  have hloaded : ∀ x r, (TransDB.startOn order files log).m_dataIndexes.lookup x = some r →
      ∃ e : (ℕ × ℕ) × DREC, r = IndexBlock.loadedIndex e.1 e.2 := by
    intro x r hx
    rcases lookup_fillMap_some hx with hnone | ⟨e, -, -, hr⟩
    · cases hnone
    · exact ⟨e, hr⟩
  refine ⟨?_, List.nodup_nil, ?_, ?_, ?_⟩
  · intro x w hx
    cases hx
  · intro x r hx hmem
    rcases hmem with hmem | hmem
    · exact absurd hmem (AList.notMem_empty x)
    · cases hmem
  · intro x r hx hf
    obtain ⟨e, rfl⟩ := hloaded x r hx
    cases hf
  · intro x r hx hrel
    obtain ⟨e, rfl⟩ := hloaded x r hx
    cases hrel

end QueueInv

namespace Sys

variable {sh : Shared}

/-- The data file and the flags. -/
def QInv (s : Sys) : Prop := (∃ lost, s.DInv lost) ∧ QueueInv s.store s.disk.items

theorem AfterInit.qinv {s : Sys} (h : AfterInit sh s) : s.QInv := by
  refine ⟨h.dinv, ?_⟩
  obtain ⟨order, files, log, rfl, -, -⟩ := h.cases
  exact QueueInv.startOn order files log

theorem QInv.move {s t : Sys} {a : Action} (h : s.QInv) (ha : a.plain = true)
    (hm : Move sh s a t) : t.QInv := by
  obtain ⟨⟨lost, hd⟩, hq⟩ := h
  refine ⟨hd.move ha hm, ?_⟩
  cases hm with
  | worker store lru removing he hr => exact hq.effects hd he
  | remove x ha' hx => exact hq.remove x
  | beginProcess order rs store hdisk hg =>
    rw [hdisk] at hq
    obtain ⟨-, -, rfl⟩ := getDeleted_cases hg
    exact hq.congr rfl rfl
  | deleteItem cacheSize r rest store hdisk hi =>
    rw [hdisk] at hq
    obtain ⟨index, file, log, erased, rfl⟩ := deleteItem_cases hi
    rw [Storage.foldl_addFreeSpace]
    exact hq.congr rfl rfl
  | getItems order items store hdisk hg =>
    rw [hdisk] at hq
    exact (hq.getItems hg).1
  | processItem cfg item items toAdd toAdd' store hdisk hp =>
    rw [hdisk] at hq
    rcases hd.item hdisk hp with
      ⟨-, rfl, rfl⟩ | ⟨r, m, r', ws, size, free, p, index, file, log, hi, rfl⟩
    · exact hq.tail
    · exact QueueInv.itemDone hq hi
  | addFreeSpace r rest hdisk =>
    rw [hdisk] at hq
    exact hq.congr rfl rfl
  | endProcess hdisk =>
    rw [hdisk] at hq
    exact hq
  | defragmentFreeSpace order ha' hdisk horder =>
    subst ha'
    cases ha
  | restart ReallocSize forceStartup order store ha' hdisk horder hi =>
    subst ha'
    cases ha

/-- An X whose flag is set is in the queue or in what is left of the batch. -/
def NothingLost (s : Sys) : Prop :=
  ∀ x r, s.store.m_dataIndexes.lookup x = some r → r.inDiskWriteQueue = true →
    x ∈ s.store.m_pQueue ∨ x ∈ s.disk.items.map WriteInfo.m_key

/-- The `Remove` of `x` does not meet an X that has been created again and waits to be
written, unless the disk thread is about to write it. -/
def RemoveOk (s : Sys) (a : Action) : Prop :=
  ∀ x ∈ a.removes, ∀ r ∈ s.store.m_dataIndexes.lookup x,
    r.inDiskWriteQueue = true → x ∈ s.disk.items.map WriteInfo.m_key

instance (s : Sys) : DecidablePred s.RemoveOk := fun a =>
  Option.decidableForallMem (p := fun x => ∀ r ∈ s.store.m_dataIndexes.lookup x,
    r.inDiskWriteQueue = true → x ∈ s.disk.items.map WriteInfo.m_key) a.removes

/-- A `Remove` loses a write exactly when it is not `RemoveOk`. -/
theorem nothingLost_remove_iff {s : Sys} (h : s.NothingLost) (x : UInt64) (lru : ℕ → LRUCache)
    (removing : List UInt64) :
    NothingLost ⟨Remove s.store x, lru, s.disk, removing⟩ ↔ s.RemoveOk (.remove x) := by
  constructor
  · intro ht y hy r hr hf
    obtain rfl : x = y := Option.some.inj hy
    refine (ht x r hr hf).resolve_left fun hmem => ?_
    exact ((AList.mem_erase).mp hmem).1 rfl
  · intro hok y r hr hf
    by_cases hyx : y = x
    · subst hyx
      exact Or.inr (hok y rfl r hr hf)
    · exact (h y r hr hf).imp_left fun hmem => (AList.mem_erase).mpr ⟨hyx, hmem⟩

theorem NothingLost.move {s t : Sys} {a : Action} (h : s.NothingLost) (hinv : s.QInv)
    (ha : a.plain = true) (hok : s.RemoveOk a) (hm : Move sh s a t) : t.NothingLost := by
  obtain ⟨⟨lost, hd⟩, hq⟩ := hinv
  cases hm with
  | worker store lru removing he hr =>
    refine he.invariant (fun st => ∀ x r, st.m_dataIndexes.lookup x = some r →
      r.inDiskWriteQueue = true → x ∈ st.m_pQueue ∨ x ∈ s.disk.items.map WriteInfo.m_key) ?_ h
    intro st st' hst he1 x r hx hf
    have hqs := he1.queues
    rcases hqs.flagged x r hx hf with ⟨r0, hr0, hf0⟩ | hmem
    · exact (hst x r0 hr0 hf0).imp_left (hqs.keep x)
    · exact Or.inl hmem
  | remove x ha' hx =>
    subst ha'
    exact (nothingLost_remove_iff h x _ _).mpr hok
  | beginProcess order rs store hdisk hg =>
    obtain ⟨-, -, rfl⟩ := getDeleted_cases hg
    rw [NothingLost, hdisk] at h
    exact h
  | deleteItem cacheSize r rest store hdisk hi =>
    obtain ⟨index, file, log, erased, rfl⟩ := deleteItem_cases hi
    rw [NothingLost, hdisk] at h
    rw [Storage.foldl_addFreeSpace]
    exact h
  | getItems order items store hdisk hg =>
    rw [NothingLost, hdisk] at h
    rw [hdisk] at hq
    have hkeys := (hq.getItems hg).2
    obtain ⟨-, -, rfl⟩ := getItems_cases hg
    intro x r hx hf
    rcases h x r hx hf with hmem | hmem
    · exact Or.inr (hkeys.mem_iff.mpr (AList.mem_keys.mp hmem))
    · cases hmem
  | processItem cfg item items toAdd toAdd' store hdisk hp =>
    have hitem := hd.item hdisk hp
    rw [NothingLost, hdisk] at h
    have hother : ∀ x r, x ≠ item.m_key → s.store.m_dataIndexes.lookup x = some r →
        r.inDiskWriteQueue = true →
        x ∈ s.store.m_pQueue ∨ x ∈ items.map WriteInfo.m_key := by
      intro x r hne hx hf
      exact (h x r hx hf).imp_right fun hmem => (List.mem_cons.mp hmem).resolve_left hne
    rcases hitem with ⟨hnone, rfl, rfl⟩ | ⟨r, m, r', ws, size, free, p, index, file, log, hi, rfl⟩
    · intro x rx hx hf
      by_cases hne : x = item.m_key
      · subst hne
        have hx' : s.store.m_dataIndexes.lookup item.m_key = some rx := hx
        rw [hnone] at hx'
        cases hx'
      · exact hother x rx hne hx hf
    · have hstore := hi.store
      subst hstore
      intro x rx hx hf
      rcases Effect.lookup_insert_cases hx with ⟨rfl, rfl⟩ | ⟨hne, hold⟩
      · by_cases hmem : item.m_key ∈ s.store.m_pQueue
        · exact Or.inl hmem
        · rw [clearQueued, if_neg hmem] at hf
          cases hf
      · exact hother x rx hne hold hf
  | addFreeSpace r rest hdisk =>
    rw [NothingLost, hdisk] at h
    exact h
  | endProcess hdisk =>
    rw [NothingLost, hdisk] at h
    exact h
  | defragmentFreeSpace order ha' hdisk horder =>
    subst ha'
    cases ha
  | restart ReallocSize forceStartup order store ha' hdisk horder hi =>
    subst ha'
    cases ha

theorem AfterInit.nothingLost {s : Sys} (h : AfterInit sh s) : s.NothingLost := by
  obtain ⟨order, files, log, rfl, -, -⟩ := h.cases
  intro x r hx hf
  rcases lookup_fillMap_some hx with hnone | ⟨e, -, -, rfl⟩
  · cases hnone
  · cases hf

/-- The steps of the runs in which no write is lost. -/
def Kept (s : Sys) (a : Action) (_ : Sys) : Prop := a.plain = true ∧ s.RemoveOk a

instance (s : Sys) (a : Action) (t : Sys) : Decidable (Kept s a t) :=
  inferInstanceAs (Decidable (_ ∧ _))

/-- In every run in which no `Remove` meets an X that waits to be written, every X that
waits is queued. -/
theorem nothing_lost {s : Sys} (h : (life sh).Reach Kept s) : s.NothingLost := by
  have hinv := h.invariant (fun s => s.QInv ∧ s.NothingLost) ?_ ?_
  · exact hinv.2
  · intro s hs
    exact ⟨AfterInit.qinv hs, AfterInit.nothingLost hs⟩
  · intro s a t hs hok hstep
    have hm := step_move hstep
    exact ⟨hs.1.move hok.1 hm, hs.2.move hs.1 hok.1 hok.2 hm⟩

/-- A run with a `Remove`, and an X that waits at its end. -/
theorem nothing_lost_delete : ∃ s, (life Shared.plain).Reach Kept s
    ∧ (∃ r, s.store.m_dataIndexes.lookup 8 = some r ∧ r.inDiskWriteQueue = true)
    ∧ s.NothingLost := by
  have hrun : (fresh.bind fun s => (life Shared.plain).run (fun s a => decide (Kept s a s)) s
      [put 0 7 1, .deleteData 0 7,
        put 1 8 1, .remove 7]).any
      (fun s => (s.store.m_dataIndexes.lookup 8).any fun r => r.inDiskWriteQueue) = true := by
    decide +kernel
  have hkept : ∀ (s : Sys) (a : Action) (t : Sys), decide (Kept s a s) = true → Kept s a t := by
    intro s a t h
    exact of_decide_eq_true h
  obtain ⟨s, t, hs, hsteps, ht⟩ := exists_run _ hkept hrun
  have hreach := (Machine.Reach.init s (AfterInit.empty s hs)).steps hsteps
  exact ⟨t, hreach, (Option.any_eq_true _ _).mp ht, nothing_lost hreach⟩

/-- The `Remove` of a `DeleteData` that found nothing, after another worker has created
the X: the X waits to be written, and is not queued. -/
theorem lost_by_remove :
    ∃ s, (life Shared.plain).Reach (fun _ a _ => a.plain = true) s ∧ ¬ s.NothingLost := by
  have hrun : (fresh.bind fun s => (life Shared.plain).run (fun _ a => a.plain) s
      [.deleteData 0 7,
        put 1 7 1, .remove 7]).any
      (fun s => (s.store.m_dataIndexes.lookup 7).any (fun r => r.inDiskWriteQueue)
        && decide (7 ∉ s.store.m_pQueue) && decide (7 ∉ s.disk.items.map WriteInfo.m_key))
      = true := by
    decide +kernel
  obtain ⟨s, t, hs, hsteps, ht⟩ :=
    exists_run _ (fun (_ : Sys) (a : Action) (_ : Sys) (h : a.plain = true) => h) hrun
  refine ⟨t, (Machine.Reach.init s (AfterInit.empty s hs)).steps hsteps, fun hlost => ?_⟩
  rw [Bool.and_eq_true, Bool.and_eq_true, Option.any_eq_true] at ht
  obtain ⟨⟨⟨r, hr, hf⟩, hqueue⟩, hitems⟩ := ht
  rcases hlost 7 r hr hf with hmem | hmem
  · exact of_decide_eq_true hqueue hmem
  · exact of_decide_eq_true hitems hmem

/-! ## The block manager of an X that waits -/

/-- An X that waits to be written has its block manager in memory. -/
structure Managed (s : Sys) : Prop where
  relocate : ∀ x r, s.store.m_dataIndexes.lookup x = some r → r.relocateBlocks = true →
    r.inDiskWriteQueue = true
  manager : ∀ x r, s.store.m_dataIndexes.lookup x = some r → r.inDiskWriteQueue = true →
    r.m_pBlockManager ≠ none
  batch : ∀ item ∈ s.disk.items, ∀ r, s.store.m_dataIndexes.lookup item.m_key = some r →
    r.inDiskWriteQueue = true
  /-- `CheckBlockManager` never finds a manager missing whose blocks have no place. -/
  loadable : ∀ x r, s.store.m_dataIndexes.lookup x = some r → r.m_pBlockManager = none →
    r.relocateBlocks = false
  /-- `writeBlocks` is never given a `NULL` manager. -/
  written : ∀ item ∈ s.disk.items, ∀ r, s.store.m_dataIndexes.lookup item.m_key = some r →
    ∃ m, r.m_pBlockManager = some m

theorem QInv.managed {s : Sys} (h : s.QInv) : s.Managed := by
  obtain ⟨-, hq⟩ := h
  have hbatch : ∀ item ∈ s.disk.items, ∀ r, s.store.m_dataIndexes.lookup item.m_key = some r →
      r.inDiskWriteQueue = true := by
    intro item hitem r hr
    exact hq.flag _ r hr (Or.inr (List.mem_map_of_mem hitem))
  refine ⟨hq.relocate, hq.manager, hbatch, ?_, ?_⟩
  · intro x r hr hnone
    by_contra hrel
    rw [Bool.not_eq_false] at hrel
    exact hq.manager x r hr (hq.relocate x r hr hrel) hnone
  · intro item hitem r hr
    exact Option.ne_none_iff_exists'.mp (hq.manager _ r hr (hbatch item hitem r hr))

theorem reach_qinv {s : Sys} (h : (life sh).Reach (fun _ a _ => a.plain = true) s) : s.QInv := by
  refine h.invariant QInv (fun s hs => AfterInit.qinv hs) ?_
  intro s a t hs ha hstep
  exact hs.move ha (step_move hstep)

/-- The queues are right in every state the server can reach, over restarts too. -/
theorem reach_queue {s : Sys} (h : (server sh).Reach Small s) : s.QInv := by
  induction h with
  | init s hs =>
    have hinit : AfterInit sh s := .empty s hs
    exact hinit.qinv
  | step s t a h hok hs ih =>
    by_cases ha : a.plain = true
    · exact ih.move ha (step_move hs)
    · cases a with
      | restart ReallocSize forceStartup order =>
        exact (AfterInit.files s t ReallocSize forceStartup order h hs).qinv
      | defragmentFreeSpace order =>
        obtain ⟨lost, hinv⟩ := reach_inv (.step s t _ h hok hs)
        obtain ⟨-, -, rfl⟩ := @step_defragmentFreeSpace sh s t order hs
        exact ⟨⟨_, StorageInv.data hinv⟩, ih.2.congr rfl rfl⟩
      | _ => exact absurd rfl ha

/-- In every interleaving of the workers and the disk thread, an X that waits to be
written has its block manager. -/
theorem waiting_has_manager {s : Sys}
    (h : (life sh).Reach (fun _ a _ => a.plain = true) s) : s.Managed := (reach_qinv h).managed

/-- One X in the batch, and one that has been deleted and created again since. -/
theorem waiting_has_manager_batch : ∃ s, (life Shared.plain).Reach (fun _ a _ => a.plain = true) s
    ∧ s.disk.items.length = 2 ∧ s.Managed := by
  have hrun : (fresh.bind fun s => (life Shared.plain).run (fun _ a => a.plain) s
      [put 0 7 1,
        put 0 8 1,
        .beginProcess [], .getItems [7, 8], .deleteData 1 8, .remove 8,
        .writeData 0 (plainCfg 1000 5) (fun _ => plainCfg 1000 5) 8 1 [4]]).any
      (fun s => decide (s.disk.items.length = 2)) = true := by
    decide +kernel
  obtain ⟨s, t, hs, hsteps, ht⟩ :=
    exists_run _ (fun (_ : Sys) (a : Action) (_ : Sys) (h : a.plain = true) => h) hrun
  have hreach := (Machine.Reach.init s (AfterInit.empty s hs)).steps hsteps
  exact ⟨t, hreach, of_decide_eq_true ht, waiting_has_manager hreach⟩

end Sys

end TransDB
