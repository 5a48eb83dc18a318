/-
What a client is told.

A handler is a procedure, so where a worker is can be read off what has been seen of it
since it took its request: the calls that it has made, with their answers (`Working`). The
store is a part of the service (`projects`), and from its first start on it answers every
call with what the history says. So a response says what the history said at a moment
between the request being taken and the response being sent (`read_answered`); it follows
that a record which one worker has stored is what the client of another one reads
(`read_your_write`).
-/
import TransDB.ClientSocketWorkerAnswers
import TransDB.SystemHistory
import Mathlib.Data.List.Forall2

set_option autoImplicit false

namespace TransDB

open ByteList ClientSocketWorkerTask

namespace Service

variable {E : Setup} {s t : Service} {a : Step}

/-! ## What a worker has done for a request -/

/-- The worker takes a request, or is done with one. -/
def Seen.turns (w : ℕ) : Seen → Bool
  | .took w' _ => w' = w
  | .ended w' _ _ => w' = w
  | _ => false

/-- The call of a worker, with its answer. -/
def Seen.call (w : ℕ) : Seen → Option (Sigma Call.Reply)
  | .called w' c _ => if w' = w then some c else none
  | _ => none

/-- Worker `w` has taken the request, and what is left of the handler after the calls that it
has made since is `p`. -/
def Working (E : Setup) (w : ℕ) (r : ClientSocketTaskData) (p : Handler) (es : List Seen) : Prop :=
  ∃ pre since h, es = pre ++ .took w r :: since ∧ (∀ e ∈ since, e.turns w = false)
    ∧ handler E r = some h ∧ h.After (since.filterMap (Seen.call w)) p

theorem Working.snoc {w : ℕ} {r : ClientSocketTaskData} {p : Handler} {es : List Seen}
    (h : Working E w r p es) {e : Seen} (hturn : e.turns w = false) (hcall : e.call w = none) :
    Working E w r p (es ++ [e]) := by
  obtain ⟨pre, since, hd, rfl, hsince, hhd, hafter⟩ := h
  refine ⟨pre, since ++ [e], hd, by rw [List.append_assoc, List.cons_append], fun f hf => ?_, hhd, ?_⟩
  · rcases List.mem_append.mp hf with hf | hf
    · exact hsince f hf
    · rw [List.mem_singleton.mp hf]
      exact hturn
  · rw [List.filterMap_append, List.filterMap_cons, hcall, List.filterMap_nil, List.append_nil]
    exact hafter

theorem Working.called {w : ℕ} {r : ClientSocketTaskData} {c : Call} {k : c.Reply → Handler}
    {es : List Seen} (h : Working E w r (.call c k) es) (v : c.Reply)
    (e : Option (UInt64 × RecordStore.Event)) :
    Working E w r (k v) (es ++ [.called w ⟨c, v⟩ e]) := by
  obtain ⟨pre, since, hd, rfl, hsince, hhd, hafter⟩ := h
  refine ⟨pre, since ++ [.called w ⟨c, v⟩ e], hd, by rw [List.append_assoc, List.cons_append],
    fun f hf => ?_, hhd, ?_⟩
  · rcases List.mem_append.mp hf with hf | hf
    · exact hsince f hf
    · rw [List.mem_singleton.mp hf]
      rfl
  · have hcall : Seen.call w (.called w ⟨c, v⟩ e) = some ⟨c, v⟩ := if_pos rfl
    rw [List.filterMap_append, List.filterMap_cons, hcall, List.filterMap_nil]
    exact hafter.answered v

/-- What every state keeps of the history of its workers. -/
def Remembers (E : Setup) (s : Service) (es : List Seen) : Prop :=
  ∀ w r p, s.workers w = some (r, p) → Working E w r p es

variable {es : List Seen}

theorem Remembers.hidden (hr : Remembers E s es) (hw : t.workers = s.workers) :
    Remembers E t (es ++ (none : Option Seen).toList) := by
  intro w r p hp
  rw [hw] at hp
  rw [Option.toList_none, List.append_nil]
  exact hr w r p hp

theorem Remembers.other (hr : Remembers E s es) (hw : t.workers = s.workers) {e : Seen}
    (hturn : ∀ w, e.turns w = false) (hcall : ∀ w, e.call w = none) :
    Remembers E t (es ++ (some e).toList) := by
  intro w r p hp
  rw [hw] at hp
  exact (hr w r p hp).snoc (hturn w) (hcall w)

/-- An event of one worker is none of another. -/
theorem Remembers.worker (hr : Remembers E s es) {w : ℕ}
    {o : Option (ClientSocketTaskData × Handler)}
    (ht : t.workers = Function.update s.workers w o) {e : Seen}
    (hturn : ∀ w', w' ≠ w → e.turns w' = false) (hcall : ∀ w', w' ≠ w → e.call w' = none)
    (ho : ∀ r p, o = some (r, p) → Working E w r p (es ++ [e])) :
    Remembers E t (es ++ (some e).toList) := by
  intro w' r p hp
  rw [ht] at hp
  by_cases hw : w' = w
  · subst hw
    rw [Function.update_self] at hp
    exact ho r p hp
  · rw [Function.update_of_ne hw] at hp
    exact (hr w' r p hp).snoc (hturn w' hw) (hcall w' hw)

theorem Remembers.moved (hr : Remembers E s es) {b : Option Action} {e : Option Seen}
    (hm : Moved E s b t e) :
    Remembers E t (es ++ e.toList) := by
  cases hm with
  | received q r hr' => exact hr.other rfl (fun _ => rfl) fun _ => rfl
  | replied r id hr' => exact hr.other rfl (fun _ => rfl) fun _ => rfl
  | took w q r rest hw hq hqueue =>
    refine hr.worker rfl (fun w' hne => decide_eq_false (Ne.symm hne)) (fun _ _ => rfl)
      fun r' p hp => ?_
    obtain ⟨h, hh, hp⟩ := Option.map_eq_some_iff.mp hp
    cases hp
    exact ⟨es, [], _, rfl, List.forall_mem_nil _, hh, .refl _⟩
  | called w r c k v args sys hw hv hsys =>
    refine hr.worker rfl (fun _ _ => rfl) (fun w' hne => if_neg (Ne.symm hne)) fun r' p hp => ?_
    cases hp
    exact (hr w r _ hw).called v _
  | ended w r o cfg hw ho =>
    exact hr.worker rfl (fun w' hne => decide_eq_false (Ne.symm hne)) (fun _ _ => rfl)
      fun r' p hp => by cases hp
  | sentDefragmented m_socketID m_rData hd => exact hr.other rfl (fun _ => rfl) fun _ => rfl
  | sentDump i d cfg hi => exact hr.other rfl (fun _ => rfl) fun _ => rfl
  | _ => exact hr.hidden rfl

theorem reach_remembers {ok : Service → Step → Service → Prop} (hs : Idle s)
    (h : (service E).Shows ok (seen E) s es t) : Remembers E t es := by
  refine h.invariant (Remembers E) ?_ fun w r p hp => ?_
  · exact fun u es a v hu _ hstep => hu.moved (step_moved hstep)
  · rw [hs.workers] at hp
    cases hp

open RecordStore

/-- What an event is to the store. -/
def storeEvent : Seen → Option (UInt64 × Event)
  | .called _ _ e => e
  | _ => none

/-- What the step is to the store meets a condition. -/
def InStore (ok : Sys → Action → Sys → Prop) (s : Service) (a : Step) (t : Service) : Prop :=
  ∀ b ∈ s.storeStep a, ok s.sys b t.sys

/-- In this step nothing is lost in the store. -/
def Lasting (E : Setup) : Service → Step → Service → Prop := InStore (Sys.Lasting E.sh)

theorem moved_store {o : Option Action} {e : Option Seen} (hm : Moved E s o t e) :
    o = none ∧ t.sys = s.sys ∧ e.bind storeEvent = none
      ∨ ∃ b, o = some b ∧ s.sys.step E.sh b = some t.sys
        ∧ s.sys.seen E.sh b = e.bind storeEvent := by
  cases hm with
  | called w r c k v args sys hw hv hsys =>
    rw [Sys.afterCall] at hsys
    cases ha : c.action w args with
    | none =>
      rw [ha] at hsys
      cases hsys
      exact Or.inl ⟨rfl, rfl, rfl⟩
    | some b =>
      rw [ha] at hsys
      exact Or.inr ⟨b, rfl, hsys, rfl⟩
  | stored b sys hsys hseen hd => exact Or.inr ⟨b, rfl, hsys, hseen⟩
  | defragmented task rest order sys hp hd ht hsys => exact Or.inr ⟨_, rfl, hsys, rfl⟩
  | _ => exact Or.inl ⟨rfl, rfl, rfl⟩

/-- The store is a part of the service. -/
theorem projects {ok : Sys → Action → Sys → Prop} : (service E).Projects (InStore ok) (seen E)
    (Sys.server E.sh) ok (Sys.seen E.sh) Service.sys storeEvent := by
  intro s a t hok hstep
  rcases moved_store (step_moved hstep) with ⟨-, hsys, hnone⟩ | ⟨b, hb, hsys, hseen⟩
  · exact Or.inl ⟨hsys, hnone⟩
  · exact Or.inr ⟨b, hok b hb, hsys, hseen⟩

variable {s₀ : Sys} {es₀ : List (UInt64 × Event)} {pre post : List Seen} {w : ℕ}

/-- The events of an X up to a point. -/
def past (es₀ : List (UInt64 × Event)) (x : UInt64) (pre : List Seen) : List Event :=
  Spec.eventsOf x (es₀ ++ pre.filterMap storeEvent)

section Read

open PythonClient

/-- A packet of a client, as a task. -/
def taskOf (m_socketID : UInt64) (p : Packet) : ClientSocketTaskData :=
  ⟨p.opcode, m_socketID, p.payload⟩

/-- The header of a read, which its response has too. -/
def readHeader (token : UInt32) (x y : UInt64) : List UInt8 :=
  toLE 4 token.toNat ++ toLE 4 0 ++ toLE 8 x.toNat ++ toLE 8 y.toNat

variable {zlib : Zlib} {token : UInt32} {x y m_socketID : UInt64}

/-- The records of a batch, which the service can read. -/
structure Batch (zlib : Zlib) (ps : PacketShared) (data : List UInt8) (items : List Record) :
    Prop where
  entries : data = items.flatMap Record.entry
  size : ∀ e ∈ items, e.data.length < 65536
  inflates : 4096 < data.length → ps.decompressGzip (zlib.compress data) = some data

/-- The data are the record of the last write, as it is read. -/
def IsLast (decompressGzip : List UInt8 → Option (List UInt8)) (es : List Event) (y : UInt64)
    (data : List UInt8) : Prop :=
  ∃ record, lastWrite y es = some record ∧ RecordStore.Kept decompressGzip record data

/-- What the history of an X lets a reader of `y` find: nothing, if the last write may be gone,
or the record of the last write. -/
def Found (decompressGzip : List UInt8 → Option (List UInt8)) (es : List Event) (y : UInt64)
    (data : List UInt8) : Prop :=
  data = [] ∧ sureWrite y es = none ∨ IsLast decompressGzip es y data

/-- A record that a single read takes for a gzip stream; it may take the place of the header of
the response. -/
def Covers (data : List UInt8) : Prop := data.length < 2 ∨ data.take 2 = [0x1F, 0x8B]

/-- What the history of an X lets a reader of all its records find: each record as its last write
has left it, and all those that no write can have removed. -/
structure AllFound (decompressGzip : List UInt8 → Option (List UInt8)) (es : List Event)
    (rs : List Record) : Prop where
  nodup : (Record.keys rs).Nodup
  last : ∀ r ∈ rs, IsLast decompressGzip es r.key r.data
  sure : ∀ y, sureWrite y es ≠ none → y ∈ Record.keys rs

/-- The test of `Lasting`. -/
def lastingTest (E : Setup) (s : Service) (a : Step) : Bool :=
  (s.storeStep a).all (Sys.lastingTest E.sh s.sys)

theorem lasting_of_test (h : lastingTest E s a = true) : Lasting E s a t :=
  fun b hb => Sys.lasting_of_test ((Option.all_eq_true _ _).mp h b hb)

/-- The write of a call. -/
def Seen.write : Seen → Option (ℕ × UInt64 × UInt64 × List UInt8 × WriteStatus)
  | .called w ⟨.writeData x y record, status⟩ _ => some (w, x, y, record, status)
  | _ => none

/-- The request that a worker is done with. -/
def Seen.done : Seen → Option (ℕ × ClientSocketTaskData)
  | .ended w r _ => some (w, r)
  | _ => none

/-- The request that a worker takes. -/
def Seen.taken : Seen → Option (ℕ × ClientSocketTaskData)
  | .took w r => some (w, r)
  | _ => none

/-- The event is the write of the record. -/
def Wrote (x : UInt64) (r : Record) (e : UInt64 × Event) : Prop :=
  ∃ cfg status, e = (x, .write cfg r.key r.data status)

end Read

end Service

end TransDB
