/-
`Process` as a run of the disk thread.

`Process` with nothing else running is the disk thread taking one step after another,
from the first lock to the end of `rFreeSpaceToAdd`; so what is proved of the steps
holds of it. The queues are taken as a whole, so they are empty when it has ended, and
the index file only grows, so that a bound at the end is one at every step.
-/
import TransDB.SystemQueue

set_option autoImplicit false

namespace TransDB

open DiskWriter Storage

/-- The workers write no file. -/
theorem Effects.files_eq {sh : Shared} {allowed : Allowed} {st st' : Storage}
    (he : Effects sh allowed st st') : st'.files = st.files := by
  refine he.invariant (fun st' => st'.files = st.files) ?_ rfl
  intro st1 st2 h he1
  exact he1.sameDisk.files.trans h

theorem Action.disk_plain {a : Action} (h : a.disk = true) : a.plain = true := by
  cases a with
  | defragmentFreeSpace order => cases h
  | restart ReallocSize forceStartup order => cases h
  | _ => rfl

namespace Sys

variable {sh : Shared}

/-- The disk thread alone takes the steps. -/
def DiskOnly (_ : Sys) (a : Action) (_ : Sys) : Prop := a.disk = true

section Process

variable {lru : ℕ → LRUCache} {removing : List UInt64}

theorem deleteItems_steps {cacheSize : ℕ → ℕ} (rs : List RecordIndex) :
    ∀ (k : ℕ) (st st' : Storage),
      (rs.zipIdx k).foldlM (fun self e => DiskWriter.deleteItem (cacheSize e.2) self e.1) st
        = some st' →
      (server sh).Steps DiskOnly ⟨st, lru, .deleting rs, removing⟩
        ⟨st', lru, .deleting [], removing⟩ := by
  induction rs with
  | nil =>
    intro k st st' h
    cases h
    exact .refl _
  | cons r rs ih =>
    intro k st st' h
    rw [List.zipIdx_cons, List.foldlM_cons] at h
    obtain ⟨st1, hi, h⟩ := Option.bind_eq_some_iff.mp h
    refine .head _ ⟨st1, lru, .deleting rs, removing⟩ _ (.deleteItem (cacheSize k)) rfl ?_
      (ih (k + 1) st1 st' h)
    show step sh ⟨st, lru, .deleting (r :: rs), removing⟩ (.deleteItem (cacheSize k)) = _
    rw [step]
    dsimp only
    rw [hi]
    rfl

theorem processItems_steps {cfg : ℕ → DiskCfg} (items : List WriteInfo) :
    ∀ (k : ℕ) (st st' : Storage) (toAdd toAdd' : List Region),
      (items.zipIdx k).foldlM (fun (s : Storage × List Region) e =>
        DiskWriter.processItem sh (cfg e.2) s.1 s.2 e.1) (st, toAdd) = some (st', toAdd') →
      (server sh).Steps DiskOnly ⟨st, lru, .writing items toAdd, removing⟩
        ⟨st', lru, .writing [] toAdd', removing⟩ := by
  induction items with
  | nil =>
    intro k st st' toAdd toAdd' h
    cases h
    exact .refl _
  | cons item items ih =>
    intro k st st' toAdd toAdd' h
    rw [List.zipIdx_cons, List.foldlM_cons] at h
    obtain ⟨⟨st1, toAdd1⟩, hi, h⟩ := Option.bind_eq_some_iff.mp h
    refine .head _ ⟨st1, lru, .writing items toAdd1, removing⟩ _ (.processItem (cfg k)) rfl ?_
      (ih (k + 1) st1 st' toAdd1 toAdd' h)
    show step sh ⟨st, lru, .writing (item :: items) toAdd, removing⟩ (.processItem (cfg k)) = _
    rw [step]
    dsimp only
    rw [hi]
    rfl

theorem addFreeSpace_steps (rs : List Region) : ∀ st : Storage,
    (server sh).Steps DiskOnly ⟨st, lru, .writing [] rs, removing⟩
      ⟨rs.foldl Storage.addFreeSpace st, lru, .writing [] [], removing⟩ := by
  induction rs with
  | nil =>
    intro st
    exact .refl _
  | cons r rs ih =>
    intro st
    exact .head _ _ _ .addFreeSpace rfl rfl (ih (st.addFreeSpace r))

/-- The steps of one `Process`, up to its end. -/
theorem process_steps {s : Sys} {args : ProcessArgs} {st : Storage} (hd : s.disk = .idle)
    (h : Process sh args s.store = some st) :
    (server sh).Steps DiskOnly s ⟨st, s.lru, .writing [] [], s.removing⟩ := by
  obtain ⟨st2, hdel, h⟩ := Option.bind_eq_some_iff.mp h
  obtain ⟨⟨rs, st1⟩, hget, hdel⟩ := Option.bind_eq_some_iff.mp hdel
  obtain ⟨⟨items, st3⟩, hitems, h⟩ := Option.bind_eq_some_iff.mp h
  obtain ⟨⟨st4, toAdd⟩, hprocess, h⟩ := Option.bind_eq_some_iff.mp h
  cases h
  refine .head _ ⟨st1, s.lru, .deleting rs, s.removing⟩ _ (.beginProcess args.deleteOrder) rfl ?_ ?_
  · show s.step sh (.beginProcess args.deleteOrder) = _
    rw [step, hd]
    dsimp only
    rw [hget]
    rfl
  refine (deleteItems_steps rs 0 st1 st2 hdel).trans ?_
  refine .head _ ⟨st3, s.lru, .writing items [], s.removing⟩ _ (.getItems args.order) rfl ?_ ?_
  · show step sh ⟨st2, s.lru, .deleting [], s.removing⟩ (.getItems args.order) = _
    rw [step]
    dsimp only
    rw [hitems]
    rfl
  exact (processItems_steps items 0 st3 st4 [] toAdd hprocess).trans (addFreeSpace_steps toAdd st4)

end Process

/-! ## The index file grows -/

theorem index_length_le {s t : Sys} {a : Action} {lost : List Region} (h : s.DInv lost)
    (ha : a.plain = true) (hm : Move sh s a t) :
    s.store.files.index.length ≤ t.store.files.index.length := by
  cases hm with
  | worker store lru removing he hr hw => exact Nat.le_of_eq (by rw [he.files_eq])
  | remove x ha' hx => exact Nat.le_refl _
  | beginProcess order rs store hdisk hg =>
    obtain ⟨-, -, rfl⟩ := getDeleted_cases hg
    exact Nat.le_refl _
  | deleteItem cacheSize r rest store hdisk hi => exact Nat.le_of_eq (deleteItem_length hi).symm
  | getItems order items store hdisk hg =>
    obtain ⟨-, -, rfl⟩ := getItems_cases hg
    exact Nat.le_refl _
  | processItem cfg item items toAdd toAdd' store hdisk hp =>
    rcases h.item hdisk hp with
      ⟨-, rfl, rfl⟩ | ⟨r, m, r', ws, size, free, p, index, file, log, hi, rfl⟩
    · exact Nat.le_refl _
    · exact hi.length_le
  | addFreeSpace r rest hdisk => exact Nat.le_refl _
  | endProcess hdisk => exact Nat.le_refl _
  | defragmentFreeSpace order ha' hdisk horder => exact Nat.le_refl _
  | restart ReallocSize forceStartup order store ha' hdisk horder hi =>
    subst ha'
    cases ha

/-- An index file that is below 2^20 blocks at the end has been so all the time. -/
theorem steps_small {ok : Sys → Action → Sys → Prop} (hok : ∀ s a t, ok s a t → a.plain = true)
    {s t : Sys} (h : (server sh).Steps ok s t) :
    (∃ lost, s.DInv lost) → t.store.files.index.length < 2 ^ 20 →
    (server sh).Steps (fun s a t => ok s a t ∧ Small s a t) s t
      ∧ s.store.files.index.length ≤ t.store.files.index.length := by
  induction h with
  | refl s =>
    intro _ _
    exact ⟨.refl s, Nat.le_refl _⟩
  | head s u t a ha hs _ ih =>
    rintro ⟨lost, hd⟩ hlt
    have hplain := hok s a u ha
    have hm := step_move hs
    obtain ⟨hsteps, hle⟩ := ih (hd.move hplain hm) hlt
    have hle' := index_length_le hd hplain hm
    have hsmall : s.store.files.index.length < 2 ^ 20 := by omega
    exact ⟨.head s u t a ⟨ha, hsmall⟩ hs hsteps, by omega⟩

/-! ## The queues are empty in the end -/

/-- What the disk thread has taken is not in the queues any more. -/
structure Taken (s : Sys) : Prop where
  delQueue : s.disk ≠ .idle → s.store.m_pRIDelQueue = ∅
  queue : ∀ items toAdd, s.disk = .writing items toAdd → s.store.m_pQueue = ∅

theorem Taken.move {s t : Sys} {a : Action} (h : s.Taken) (hinv : ∃ lost, s.DInv lost)
    (ha : a.disk = true) (hm : Move sh s a t) : t.Taken := by
  obtain ⟨lost, hd⟩ := hinv
  cases hm with
  | worker store lru removing he hr hw =>
    rw [ha] at hw
    cases hw
  | remove x ha' hx =>
    subst ha'
    cases ha
  | beginProcess order rs store hdisk hg =>
    obtain ⟨-, -, rfl⟩ := getDeleted_cases hg
    refine ⟨fun _ => rfl, ?_⟩
    rintro items toAdd ⟨⟩
  | deleteItem cacheSize r rest store hdisk hi =>
    obtain ⟨index, file, log, erased, rfl⟩ := deleteItem_cases hi
    rw [Storage.foldl_addFreeSpace]
    refine ⟨fun _ => h.delQueue ?_, ?_⟩
    · rw [hdisk]
      rintro ⟨⟩
    · rintro items toAdd ⟨⟩
  | getItems order items store hdisk hg =>
    obtain ⟨-, -, rfl⟩ := getItems_cases hg
    refine ⟨fun _ => h.delQueue ?_, fun _ _ _ => rfl⟩
    rw [hdisk]
    rintro ⟨⟩
  | processItem cfg item items toAdd toAdd' store hdisk hp =>
    have hdel := h.delQueue (by rw [hdisk]; rintro ⟨⟩)
    have hqueue := h.queue _ _ hdisk
    rcases hd.item hdisk hp with
      ⟨-, rfl, rfl⟩ | ⟨r, m, r', ws, size, free, p, index, file, log, hi, rfl⟩
    · exact ⟨fun _ => hdel, fun _ _ _ => hqueue⟩
    · have hstore := hi.store
      subst hstore
      exact ⟨fun _ => hdel, fun _ _ _ => hqueue⟩
  | addFreeSpace r rest hdisk =>
    exact ⟨fun _ => h.delQueue (by rw [hdisk]; rintro ⟨⟩), fun _ _ _ => h.queue _ _ hdisk⟩
  | endProcess hdisk =>
    refine ⟨fun hne => absurd rfl hne, ?_⟩
    rintro items toAdd ⟨⟩
  | defragmentFreeSpace order ha' hdisk horder =>
    subst ha'
    cases ha
  | restart ReallocSize forceStartup order store ha' hdisk horder hi =>
    subst ha'
    cases ha

/-- A `Process` leaves both queues empty. -/
theorem process_taken {s : Sys} {args : ProcessArgs} {st : Storage} (hd : s.disk = .idle)
    (hinv : ∃ lost, s.DInv lost) (h : Process sh args s.store = some st) :
    st.m_pRIDelQueue = ∅ ∧ st.m_pQueue = ∅ := by
  have hidle : s.Taken := ⟨fun hne => absurd hd hne, fun items toAdd hw => by rw [hd] at hw; cases hw⟩
  have hend := (process_steps hd h).invariant (fun s => (∃ lost, s.DInv lost) ∧ s.Taken) ?_
    ⟨hinv, hidle⟩
  · exact ⟨hend.2.delQueue (by rintro ⟨⟩), hend.2.queue [] [] rfl⟩
  · rintro s a t ⟨⟨lost, hs⟩, htaken⟩ hok hstep
    have hm := step_move hstep
    exact ⟨hs.move (Action.disk_plain hok) hm, htaken.move ⟨lost, hs⟩ hok hm⟩

end Sys

end TransDB
