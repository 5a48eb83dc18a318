/-
What is retired is given back once.

Every region an X stops using goes to `AddFreeSpace`, by way of the deletion queue or of
`rFreeSpaceToAdd`, and every slot of a deleted X is erased. The deletion queue has one
entry for each key, though, and `QueueIndexDeletetion` replaces it: when an X is deleted,
created and deleted again before the next flush, the second deletion, which has nothing
to give back, takes the place of the first. `Repeats` is this case.
-/
import TransDB.ServerRuns

set_option autoImplicit false

namespace TransDB

open DiskWriter Storage

/-- There is an entry of `x` with a place in the deletion queue, and `x` can be deleted
once more. -/
def Storage.Repeats (st : Storage) (x : UInt64) : Prop :=
  x ∈ st.m_dataIndexes ∧ ∃ q ∈ st.m_pRIDelQueue.lookup x, q.m_recordStart ≠ -1

instance (st : Storage) : DecidablePred st.Repeats :=
  fun _ => inferInstanceAs (Decidable (_ ∧ ∃ _ ∈ _, _))

/-- An entry without a region has nothing to lose. -/
theorem StorageInv.replaced_eq_nil {sh : Shared} {st : Storage} {deleting : List RecordIndex}
    {toAdd : List Region} {lost : List ((ℕ × ℕ) × Region)} {x : UInt64}
    (h : StorageInv sh st deleting toAdd lost)
    (hx : ∀ q ∈ st.m_pRIDelQueue.lookup x, q.m_recordStart = -1) {γ : Type}
    {f : RecordIndex → List γ} (hf : PlaceOnly f) : replaced f st x = [] := by
  rw [replaced]
  cases hq : st.m_pRIDelQueue.lookup x with
  | none => rfl
  | some q =>
    have hstart := hx q hq
    rw [Option.toList_some, List.flatMap_singleton]
    refine hf.fresh q hstart ?_
    cases hslot : q.slot with
    | none => exact (h.index.gone x q hq hslot).2
    | some slot =>
      have hpos := h.index.start_nonneg
        (fun c hc => mem_held.mpr (Or.inr (Or.inl ⟨x, q, hq, hc⟩))) hslot
      omega

/-- What the deletion queue and the disk thread hold of an entry. -/
theorem queued_cons {γ : Type} (f : RecordIndex → List γ) (st : Storage) (r : RecordIndex)
    (rest : List RecordIndex) : (queued f st (r :: rest)).Perm (f r ++ queued f st rest) := by
  rw [queued, queued, List.flatMap_cons]
  exact List.perm_append_comm_assoc _ _ _

theorem owned_map_fst (r : RecordIndex) : (owned r).map Prod.fst = r.slot.toList := by
  rw [owned]
  cases r.slot with
  | none => rfl
  | some slot => rfl

namespace Sys

variable {sh : Shared}

/-- The state is as it should be, and what has been retired has been freed, or is going
to be; so it is with the slots. -/
structure Reclaims (sh : Shared) (s : Sys) : Prop where
  inv : s.Inv sh []
  retired : s.store.trace.retired.Perm
    (s.store.trace.freed ++ (s.disk.toAdd ++ queued usedRegion s.store s.disk.deleted))
  deleted : s.store.trace.deleted.Perm
    (s.store.trace.erased ++ queued usedSlot s.store s.disk.deleted)

theorem Reclaims.started {s : Sys} (h : Started s) : Reclaims sh s := by
  have hinv : s.Inv sh [] := Inv.started h
  obtain ⟨ReallocSize, store, hinit, rfl⟩ := h
  obtain ⟨files', log, rfl, -⟩ := Init_cases (FilesOk.empty sh) (List.Perm.refl _) hinit
  exact ⟨hinv, List.Perm.refl _, List.Perm.refl _⟩

/-- A worker that deletes no X. -/
theorem Reclaims.effects {allowed : Allowed} {st st' : Storage} {deleting : List RecordIndex}
    {toAdd : List Region} (h : StorageInv sh st deleting toAdd [])
    (hdel : ∀ x, ¬ allowed.delete x) (he : Effects sh allowed st st') :
    StorageInv sh st' deleting toAdd [] ∧ st'.trace = st.trace
      ∧ st'.m_pRIDelQueue = st.m_pRIDelQueue := by
  refine he.invariant (fun st' => StorageInv sh st' deleting toAdd [] ∧ st'.trace = st.trace
    ∧ st'.m_pRIDelQueue = st.m_pRIDelQueue) ?_ ⟨h, rfl, rfl⟩
  rintro st1 st2 ⟨h1, htrace, hqueue⟩ he1
  rcases h1.effect he1 with ⟨hs, h2⟩ | ⟨x, r, ha, -, -, -⟩
  · exact ⟨h2, hs.trace.trans htrace, hs.delQueue.trans hqueue⟩
  · exact absurd ha (hdel x)

/-- What is handed out is either back or waits; what is added to it waits. -/
theorem perm_retire {β : Type} {out back waits add waits' : List β}
    (h : out.Perm (back ++ waits)) (hadd : (add ++ waits).Perm waits') :
    (out ++ add).Perm (back ++ waits') :=
  calc (out ++ add).Perm ((back ++ waits) ++ add) := h.append_right add
    _ = back ++ (waits ++ add) := List.append_assoc ..
    List.Perm _ (back ++ (add ++ waits)) := List.perm_append_comm.append_left back
    List.Perm _ (back ++ waits') := hadd.append_left back

/-- A deletion, when nothing is replaced in the queue. -/
theorem Reclaims.deleteData {s t : Sys} {w : ℕ} {x : UInt64} (h : Reclaims sh s)
    (hok : ¬ s.store.Repeats x) (hs : s.step sh (.deleteData w x) = some t) : Reclaims sh t := by
  obtain ⟨u, hw, hs⟩ := Option.bind_eq_some_iff.mp hs
  cases hs
  obtain ⟨store, lru, hd, rfl⟩ := worker_some hw
  rcases DeleteData_cases hd with ⟨-, rfl⟩ | ⟨r, hx, rfl⟩
  · exact ⟨h.inv, h.retired, h.deleted⟩
  · have hplace : ∀ q ∈ s.store.m_pRIDelQueue.lookup x, q.m_recordStart = -1 := by
      intro q hq
      by_contra hne
      exact hok ⟨AList.lookup_isSome.mp (by rw [hx]; rfl), q, hq, hne⟩
    have hinv : StorageInv sh s.store s.disk.deleted s.disk.toAdd [] := h.inv
    have hnil : ∀ {γ : Type} {f : RecordIndex → List γ}, PlaceOnly f → replaced f s.store x = [] :=
      fun hf => hinv.replaced_eq_nil hplace hf
    have hdel : Effect sh ⟨fun _ _ _ => False, fun y => y = x⟩ s.store (s.store.deleted sh x r) :=
      .delete x r hx rfl
    have hadd : ∀ {γ : Type} {f : RecordIndex → List γ}, PlaceOnly f →
        (f r ++ queued f s.store s.disk.deleted).Perm
          (queued f (s.store.deleted sh x r) s.disk.deleted) := by
      intro γ f hf
      have hp : (f r ++ queued f s.store s.disk.deleted).Perm
          (queued f (s.store.deleted sh x r) s.disk.deleted ++ replaced f s.store x) :=
        queued_delete sh hf
      rw [hnil hf, List.append_nil] at hp
      exact hp
    refine ⟨?_, ?_, ?_⟩
    · rcases hinv.effect hdel with ⟨-, hinv'⟩ | ⟨y, ry, rfl, -, -, hinv'⟩
      · exact hinv'
      · rw [hnil owned_place] at hinv'
        exact hinv'
    · -- the region is retired, and waits in the queue
      show (s.store.trace.retired ++ usedRegion r).Perm (s.store.trace.freed
        ++ (s.disk.toAdd ++ queued usedRegion (s.store.deleted sh x r) s.disk.deleted))
      have hret := h.retired
      rw [← List.append_assoc] at hret ⊢
      exact perm_retire hret (hadd usedRegion_place)
    · show (s.store.trace.deleted ++ usedSlot r).Perm (s.store.trace.erased
        ++ queued usedSlot (s.store.deleted sh x r) s.disk.deleted)
      exact perm_retire h.deleted (hadd usedSlot_place)

/-- Every other step. -/
theorem Reclaims.move {s t : Sys} {a : Action} (h : Reclaims sh s)
    (hsmall : s.store.files.index.length < 2 ^ 20) (ha : a.plain = true) (hdel : a.deletes = none)
    (hm : Move sh s a t) : Reclaims sh t := by
  have hinv := h.inv
  have hret := h.retired
  have hslot := h.deleted
  cases hm with
  | worker store lru removing he hr hw =>
    have hnot : ∀ x, ¬ (s.allowed sh a).delete x := by
      rintro x ⟨w, rfl⟩
      cases hdel
    obtain ⟨hinv', htrace, hqueue⟩ := Reclaims.effects hinv hnot he
    refine ⟨hinv', ?_, ?_⟩
    · show store.trace.retired.Perm (store.trace.freed ++ (s.disk.toAdd ++ queued _ store _))
      rw [htrace, queued, hqueue]
      exact hret
    · show store.trace.deleted.Perm (store.trace.erased ++ queued _ store _)
      rw [htrace, queued, hqueue]
      exact hslot
  | remove x ha' hx => exact ⟨Inv.queue hinv _, hret, hslot⟩
  | beginProcess order rs store hd hg =>
    rw [Inv, hd] at hinv
    rw [hd] at hret hslot
    have hqr := getDeleted_held usedRegion hg
    have hqs := getDeleted_held usedSlot hg
    refine ⟨StorageInv.getDeleted hinv hg, ?_, ?_⟩
    · obtain ⟨-, -, rfl⟩ := getDeleted_cases hg
      exact hret.trans ((hqr.symm.append_left _).append_left _)
    · obtain ⟨-, -, rfl⟩ := getDeleted_cases hg
      exact hslot.trans (hqs.symm.append_left _)
  | deleteItem cacheSize r rest store hd hi =>
    rw [Inv, hd] at hinv
    rw [hd] at hret hslot
    obtain ⟨index, file, iw, store', hi', hstore, hinv', -⟩ := StorageInv.deleteItem hinv cacheSize
    rw [hi] at hi'
    cases hi'
    have hqr := queued_cons usedRegion s.store r rest
    have hqs := queued_cons usedSlot s.store r rest
    refine ⟨hinv', ?_, ?_⟩
    · rw [hstore]
      show s.store.trace.retired.Perm (s.store.trace.freed ++ usedRegion r
        ++ ([] ++ queued usedRegion s.store rest))
      rw [List.append_assoc]
      exact hret.trans (hqr.append_left _)
    · rw [hstore]
      show s.store.trace.deleted.Perm (s.store.trace.erased ++ usedSlot r
        ++ queued usedSlot s.store rest)
      rw [List.append_assoc]
      exact hslot.trans (hqs.append_left _)
  | getItems order items store hd hg =>
    rw [Inv, hd] at hinv
    rw [hd] at hret hslot
    obtain ⟨-, -, rfl⟩ := getItems_cases hg
    exact ⟨Inv.queue hinv _, hret, hslot⟩
  | processItem cfg item items toAdd toAdd' store hd hp =>
    rw [Inv, hd] at hinv
    rw [hd] at hret hslot
    rcases StorageInv.data hinv |>.processItem_cases hp with
      ⟨-, rfl, rfl⟩ | ⟨r, m, r', ws, size, free, p, index, file, log, hi, rfl⟩
    · exact ⟨hinv, hret, hslot⟩
    · have hinv' := (StorageInv.itemDone hinv hsmall hi).1
      refine ⟨hinv', ?_, ?_⟩
      · rw [hi.store]
        show (s.store.trace.retired ++ givenUp r).Perm (s.store.trace.freed
          ++ (toAdd ++ givenUp r ++ queued usedRegion s.store []))
        have hret' : s.store.trace.retired.Perm (s.store.trace.freed
          ++ (toAdd ++ queued usedRegion s.store [])) := hret
        rw [List.perm_iff_count] at hret' ⊢
        intro reg
        have h1 := hret' reg
        simp only [List.count_append] at h1 ⊢
        omega
      · rw [hi.store]
        exact hslot
  | addFreeSpace r rest hd =>
    rw [Inv, hd] at hinv
    rw [hd] at hret hslot
    refine ⟨StorageInv.addFreeSpace hinv, ?_, hslot⟩
    show s.store.trace.retired.Perm (s.store.trace.freed ++ [r]
      ++ (rest ++ queued usedRegion s.store []))
    rw [List.append_assoc]
    exact hret
  | endProcess hd =>
    rw [Inv, hd] at hinv
    rw [hd] at hret hslot
    exact ⟨hinv, hret, hslot⟩
  | defragmentFreeSpace order ha' hd horder =>
    subst ha'
    cases ha
  | restart ReallocSize forceStartup order store ha' hd horder hi =>
    subst ha'
    cases ha

/-- The action deletes an X of which an entry with a place waits for its deletion. -/
def Repeats (s : Sys) (a : Action) : Prop := ∃ x ∈ a.deletes, s.store.Repeats x

theorem Reclaims.step {s t : Sys} {a : Action} (h : Reclaims sh s)
    (hsmall : s.store.files.index.length < 2 ^ 20) (ha : a.plain = true) (hok : ¬ s.Repeats a)
    (hs : s.step sh a = some t) : Reclaims sh t := by
  cases hdel : a.deletes with
  | none => exact h.move hsmall ha hdel (step_move hs)
  | some x =>
    cases a with
    | deleteData w y =>
      cases hdel
      exact h.deleteData (fun hrep => hok ⟨x, rfl, hrep⟩) hs
    | _ => cases hdel

end Sys

/-! ## Whole operations -/

/-- The X that an operation deletes. -/
def Op.deletes : Op → Option UInt64
  | .deleteData _ x => some x
  | _ => none

theorem Op.deletes_action {op : Op} {a : Action} (h : op.action = some a) :
    op.deletes = a.deletes := by
  cases op with
  | process args => cases h
  | restart ReallocSize forceStartup order => cases h
  | _ =>
    cases h
    rfl

namespace Server

variable {sh : Shared}

/-- No start, an index file below 2^20 blocks, and no deletion of an X of which an entry
with a place waits for its deletion. -/
def OnceEach (s : Server) (op : Op) (t : Server) : Prop :=
  op.plain = true ∧ t.store.files.index.length < 2 ^ 20 ∧ ∀ x ∈ op.deletes, ¬ s.store.Repeats x

/-- The steps of such an operation. -/
theorem opStep_once {s : Server} {op : Op} {u v : Sys} {a : Action} (hok : OpStep s op u a v)
    (honce : ∀ x ∈ op.deletes, ¬ s.store.Repeats x) : ¬ u.Repeats a := by
  rintro ⟨x, hx, hrep⟩
  rcases hok.2.2 with ⟨-, hdel⟩ | ⟨rfl, hop⟩
  · rw [hdel] at hx
    cases hx
  · rw [← Op.deletes_action hop] at hx
    exact honce x hx hrep

theorem reclaims_run {s t : Server} {op : Op} (h : Sys.Reclaims sh s.atRest)
    (hok : OnceEach s op t) (hrun : s.run sh op = some t) : Sys.Reclaims sh t.atRest := by
  obtain ⟨hplain, hsmall, honce⟩ := hok
  have hsteps := run_steps hplain hrun
  have hsteps' := (Sys.steps_small (fun _ _ _ ha => ha.1) hsteps
    ⟨_, StorageInv.data h.inv⟩ hsmall).1
  refine hsteps'.invariant (Sys.Reclaims sh) ?_ h
  rintro u a v hu ⟨hok, hlt⟩ hs
  exact hu.step hlt hok.1 (opStep_once hok honce) hs

theorem reach_reclaims {s : Server} (h : (machine sh).Reach OnceEach s) :
    Sys.Reclaims sh s.atRest := by
  refine h.invariant (fun s => Sys.Reclaims sh s.atRest) (fun s hs => Sys.Reclaims.started hs) ?_
  intro s op t hs hok hrun
  exact reclaims_run hs hok hrun

/-- Nothing that has been retired is missing: the regions have been freed once each and
the slots erased once each, the live X and the free space make up the data file, and the
index file has the records of the live X. -/
structure Reclaimed (st : Storage) : Prop where
  freed : st.trace.freed.Perm st.trace.retired
  erased : st.trace.erased.Perm st.trace.deleted
  tiles : Region.Tiles 0 st.m_dataFileSize (FreeSpaceBlockMap.regions st.m_rFreeSpace
    ++ KeyMap.collect (fun _ => usedRegion) st.m_dataIndexes)
  slots : ((IndexBlock.fileEntries 0 st.files.index).map Prod.fst).Perm
    (KeyMap.collect (fun _ r => r.slot.toList) st.m_dataIndexes)

/-- With nothing queued and nothing taken, all has been given back. -/
theorem reclaimed_of_empty {st : Storage}
    (h : Sys.Reclaims sh ⟨st, fun _ => LRUCache.empty, .idle, []⟩)
    (hempty : st.m_pRIDelQueue = ∅) : Reclaimed st := by
  have hinv : StorageInv sh st [] [] [] := h.inv
  have hqueued : ∀ {γ : Type} (f : RecordIndex → List γ), queued f st [] = [] := by
    intro γ f
    rw [queued, hempty]
    rfl
  have hheld : ∀ {γ : Type} (f : RecordIndex → List γ),
      held f st [] = KeyMap.collect (fun _ => f) st.m_dataIndexes := by
    intro γ f
    rw [held, hqueued, List.append_nil]
  refine ⟨?_, ?_, ?_, ?_⟩
  · have hret : st.trace.retired.Perm (st.trace.freed ++ ([] ++ queued usedRegion st [])) := h.retired
    rw [hqueued, List.append_nil, List.append_nil] at hret
    exact hret.symm
  · have hret : st.trace.deleted.Perm (st.trace.erased ++ queued usedSlot st []) := h.deleted
    rw [hqueued, List.append_nil] at hret
    exact hret.symm
  · have ht := hinv.data.tiles
    rw [hheld, List.map_nil, List.append_nil, List.nil_append] at ht
    exact ht
  · have hp := hinv.index.claims.map Prod.fst
    rw [hheld, List.append_nil, List.map_map, KeyMap.collect, List.map_flatMap] at hp
    exact hp.trans (List.Perm.of_eq (List.flatMap_congr fun e _ => owned_map_fst e.2))

/-- **Retired space is reclaimed once**, after every `Process` of a run in which no
deletion takes the place of another in the queue. -/
theorem reclaimed_once {s t : Server} {args : ProcessArgs} (h : (machine sh).Reach OnceEach s)
    (hp : s.run sh (.process args) = some t) (hsmall : t.store.files.index.length < 2 ^ 20) :
    Reclaimed t.store := by
  have hs := reach_reclaims h
  have hok : OnceEach s (.process args) t := ⟨rfl, hsmall, by rintro x ⟨⟩⟩
  have ht := reclaims_run hs hok hp
  obtain ⟨hprocess, -⟩ := process_run hp
  have htaken := Sys.process_taken (s := s.atRest) rfl ⟨_, StorageInv.data hs.inv⟩ hprocess
  have hend : Sys.Reclaims sh ⟨t.store, fun _ => LRUCache.empty, .idle, []⟩ :=
    ⟨ht.inv, ht.retired, ht.deleted⟩
  exact reclaimed_of_empty hend htaken.1

/-- The test of `OnceEach` on a run. -/
def onceTest (sh : Shared) (s : Server) (op : Op) : Bool :=
  op.plain && ((s.run sh op).all fun t => decide (t.store.files.index.length < 2 ^ 20))
    && op.deletes.all fun x => decide ¬ s.store.Repeats x

theorem onceEach_of_test {s t : Server} {op : Op} (h : onceTest sh s op = true)
    (hs : s.run sh op = some t) : OnceEach s op t := by
  rw [onceTest, hs, Bool.and_eq_true, Bool.and_eq_true] at h
  refine ⟨h.1.1, of_decide_eq_true (p := t.store.files.index.length < 2 ^ 20) h.1.2, ?_⟩
  intro x hx
  exact of_decide_eq_true (p := ¬ s.store.Repeats x) ((Option.all_eq_true _ _).mp h.2 x hx)

/-- The test of an operation on an index file below 2^20 blocks. -/
def plainTest (sh : Shared) (s : Server) (op : Op) : Bool :=
  op.plain && (s.run sh op).all fun t => decide (t.store.files.index.length < 2 ^ 20)

theorem plain_of_test {s t : Server} {op : Op} (h : plainTest sh s op = true)
    (hs : s.run sh op = some t) : op.plain = true ∧ t.store.files.index.length < 2 ^ 20 := by
  rw [plainTest, hs, Bool.and_eq_true] at h
  exact ⟨h.1, of_decide_eq_true (p := t.store.files.index.length < 2 ^ 20) h.2⟩

/-- A flush of the keys in the given orders. -/
def flush (deleteOrder order : List UInt64) : Op :=
  .process ⟨deleteOrder, fun _ => 64, order, fun _ => ⟨4096, 64⟩⟩

/-- The write of a record to X. -/
def put (x : UInt64) : Op :=
  .writeData 0 (Sys.plainCfg 1000 5) (fun _ => Sys.plainCfg 1000 5) x 1 [1, 2, 3]

/-- An X written, flushed, deleted and created again: its first region is free, and its
first slot is taken by the new X. -/
theorem reclaimed_once_created : ∃ s t, (machine Shared.plain).Reach OnceEach s
    ∧ s.run Shared.plain (flush [7] [7]) = some t ∧ t.store.trace.retired ≠ []
    ∧ Reclaimed t.store := by
  have hrun : (fresh.bind fun s => (machine Shared.plain).run (onceTest Shared.plain) s
      [put 7, flush [] [7], .deleteData 0 7, put 7]).any (fun s =>
        (s.run Shared.plain (flush [7] [7])).any fun t =>
          decide (t.store.files.index.length < 2 ^ 20 ∧ t.store.trace.retired ≠ [])) = true := by
    decide +kernel
  obtain ⟨s, hreach, hs⟩ := exists_run (fun _ _ _ h => onceEach_of_test h) hrun
  obtain ⟨t, hp, ht⟩ := Option.any_eq_true .. |>.mp hs
  obtain ⟨hsmall, hne⟩ := of_decide_eq_true ht
  exact ⟨s, t, hreach, hp, hne, reclaimed_once hreach hp hsmall⟩

/-- An X flushed, deleted, created and deleted again: its first region is not freed, and
its first slot is not erased. -/
theorem not_reclaimed : ∃ s t,
    (machine Shared.plain).Reach
      (fun _ op t => op.plain = true ∧ t.store.files.index.length < 2 ^ 20) s
    ∧ s.run Shared.plain (flush [7] []) = some t ∧ t.store.files.index.length < 2 ^ 20
    ∧ t.store.trace.freed = [] ∧ t.store.trace.retired ≠ [] ∧ ¬ Reclaimed t.store := by
  have hrun : (fresh.bind fun s => (machine Shared.plain).run (plainTest Shared.plain) s
      [put 7, flush [] [7], .deleteData 0 7, put 7, .deleteData 0 7]).any (fun s =>
        (s.run Shared.plain (flush [7] [])).any fun t =>
          decide (t.store.files.index.length < 2 ^ 20 ∧ t.store.trace.freed = []
            ∧ t.store.trace.retired ≠ [])) = true := by
    decide +kernel
  obtain ⟨s, hreach, hs⟩ := exists_run (fun _ _ _ h => plain_of_test h) hrun
  obtain ⟨t, hp, ht⟩ := Option.any_eq_true .. |>.mp hs
  obtain ⟨hsmall, hfreed, hne⟩ := of_decide_eq_true ht
  refine ⟨s, t, hreach, hp, hsmall, hfreed, hne, fun hrec => hne ?_⟩
  have hperm := hrec.freed
  rw [hfreed] at hperm
  exact List.nil_perm.mp hperm

end Server

end TransDB
