/-
`transDB.py`: the threads that wait for responses.

Every function of the client takes a token, puts a packet into the send queue and waits for
the data with its token; `socket_run` moves the packets between the queues and the socket.
The receive queue is one for all threads: a thread that gets the data of another one puts
them back at the end.

The lock of `getToken` is made anew in every call, so it keeps no other thread out. As long
as no two calls of `getToken` overlap, no token is sent twice (`shows_tokens`); two calls
that overlap may send the same one (`shared_token`).
-/
import TransDB.PythonClient
import TransDB.Refinement

set_option autoImplicit false

namespace TransDB

open PythonClient

/-! ## The threads -/

/-- Where a thread is. -/
inductive Caller
  /-- In none of the functions. -/
  | outside
  /-- In `getToken`, and has read `g_token` to add one. -/
  | adding (request : Request) (g_token : ℕ)
  /-- In `getToken`, and has stored the sum. -/
  | added (request : Request)
  | hasToken (request : Request) (token : ℕ)
  /-- In `getData`. -/
  | waiting (token : UInt32)
  /-- In `getData`, with the data of another token. -/
  | holding (token tokenTmp : UInt32) (data : List UInt8)

/-- The thread is in `getToken`. -/
def Caller.inGetToken : Caller → Bool
  | .adding _ _ | .added _ => true
  | _ => false

/-- The thread has nothing to do with the counter. -/
def Caller.elsewhere : Caller → Bool
  | .outside | .waiting _ | .holding _ _ _ => true
  | _ => false

/-- The variables of `transDB.py`, and its threads `ι`. -/
structure PythonThreads (ι : Type) where
  g_token : ℕ
  sendQueue : List Packet
  recvQueue : List (UInt32 × List UInt8)
  callers : ι → Caller
  /-- `socket_run` has not ended. -/
  running : Bool

namespace PythonThreads

variable {ι : Type} [DecidableEq ι]

inductive Step (ι : Type)
  | call (i : ι) (request : Request)
  | storeToken (i : ι)
  | loadToken (i : ι)
  | send (i : ι)
  | get (i : ι)
  | put (i : ι)
  /-- `socket_run` takes a packet from the send queue. -/
  | transmit
  /-- A packet has come from the socket. -/
  | receive (packet : Packet)

/-- What is seen of a step. -/
inductive Seen (ι : Type)
  | called (i : ι) (request : Request)
  | sent (i : ι) (token : UInt32) (request : Request)
  /-- The token is too large for `struct.pack`. -/
  | failed (i : ι)
  | returned (i : ι) (token : UInt32) (data : List UInt8)
  | transmitted (packet : Packet)
  | received (token : UInt32) (data : List UInt8)

/-- The thread of an event. -/
def Seen.thread : Seen ι → Option ι
  | .called i _ | .sent i _ _ | .failed i | .returned i _ _ => some i
  | .transmitted _ | .received _ _ => none

/-- A thread goes on. -/
def turn (s : PythonThreads ι) (i : ι) (c : Caller) : PythonThreads ι :=
  { s with callers := Function.update s.callers i c }

variable (zlib : Zlib)

def step (s : PythonThreads ι) : Step ι → Option (PythonThreads ι)
  | .call i request =>
    match s.callers i with
    | .outside => some (s.turn i (.adding request s.g_token))
    | _ => none
  | .storeToken i =>
    match s.callers i with
    | .adding request g_token => some { s.turn i (.added request) with g_token := g_token + 1 }
    | _ => none
  | .loadToken i =>
    match s.callers i with
    | .added request => some (s.turn i (.hasToken request s.g_token))
    | _ => none
  | .send i =>
    match s.callers i with
    | .hasToken request token =>
      if token < 2 ^ 32 then
        some { s.turn i (.waiting (UInt32.ofNat token)) with
          sendQueue := s.sendQueue ++ [request.packet zlib (UInt32.ofNat token)] }
      else some (s.turn i .outside)
    | _ => none
  | .get i =>
    match s.callers i, s.recvQueue with
    | .waiting token, (tokenTmp, data) :: rest =>
      some { s.turn i (if tokenTmp ≠ token then .holding token tokenTmp data else .outside) with
        recvQueue := rest }
    | _, _ => none
  | .put i =>
    match s.callers i with
    | .holding token tokenTmp data =>
      some { s.turn i (.waiting token) with recvQueue := s.recvQueue ++ [(tokenTmp, data)] }
    | _ => none
  | .transmit =>
    match s.running, s.sendQueue with
    --the size of the packet is packed as well
    | true, packet :: rest =>
      some { s with sendQueue := rest, running := decide (packet.payload.length < 2 ^ 32) }
    | _, _ => none
  | .receive packet =>
    if s.running = true ∧ packet.payload.length < 2 ^ 32 then
      if packet.opcode = 10 then
        --pong
        some { s with sendQueue := s.sendQueue ++ [⟨9, packet.payload⟩] }
      else
        match socket_run zlib packet.encode with
        | some r => some { s with recvQueue := s.recvQueue ++ [r] }
        --struct.error
        | none => some { s with running := false }
    else none

def seen (s : PythonThreads ι) : Step ι → Option (Seen ι)
  | .call i request => some (.called i request)
  | .send i =>
    match s.callers i with
    | .hasToken request token =>
      some (if token < 2 ^ 32 then .sent i (UInt32.ofNat token) request else .failed i)
    | _ => none
  | .get i =>
    match s.callers i, s.recvQueue with
    | .waiting token, (tokenTmp, data) :: _ =>
      if tokenTmp ≠ token then none else some (.returned i token data)
    | _, _ => none
  | .transmit =>
    match s.sendQueue with
    | packet :: _ => if packet.payload.length < 2 ^ 32 then some (.transmitted packet) else none
    | [] => none
  | .receive packet =>
    if packet.opcode = 10 then none
    else (socket_run zlib packet.encode).map fun r => .received r.1 r.2
  | _ => none

/-- No thread has called one of the functions yet. -/
structure Quiet (s : PythonThreads ι) : Prop where
  callers : ∀ i, s.callers i = .outside
  sendQueue : s.sendQueue = []
  recvQueue : s.recvQueue = []

/-- The client. -/
def client : Machine (PythonThreads ι) (Step ι) where
  init := Quiet
  step := step zlib

variable {zlib : Zlib} {s t : PythonThreads ι} {a : Step ι} {e : Option (Seen ι)}

/-- What a step can do. -/
inductive Moved (zlib : Zlib) (s : PythonThreads ι) : PythonThreads ι → Option (Seen ι) → Prop
  | called (i : ι) (request : Request) (hi : s.callers i = .outside) :
    Moved zlib s (s.turn i (.adding request s.g_token)) (some (.called i request))
  | stored (i : ι) (request : Request) (g_token : ℕ) (hi : s.callers i = .adding request g_token) :
    Moved zlib s { s.turn i (.added request) with g_token := g_token + 1 } none
  | loaded (i : ι) (request : Request) (hi : s.callers i = .added request) :
    Moved zlib s (s.turn i (.hasToken request s.g_token)) none
  | sent (i : ι) (request : Request) (token : ℕ) (hi : s.callers i = .hasToken request token)
    (htoken : token < 2 ^ 32) :
    Moved zlib s { s.turn i (.waiting (UInt32.ofNat token)) with
        sendQueue := s.sendQueue ++ [request.packet zlib (UInt32.ofNat token)] }
      (some (.sent i (UInt32.ofNat token) request))
  | failed (i : ι) (request : Request) (token : ℕ) (hi : s.callers i = .hasToken request token) :
    Moved zlib s (s.turn i .outside) (some (.failed i))
  | took (i : ι) (token tokenTmp : UInt32) (data : List UInt8) (rest : List (UInt32 × List UInt8))
    (hi : s.callers i = .waiting token) (hqueue : s.recvQueue = (tokenTmp, data) :: rest)
    (hne : tokenTmp ≠ token) :
    Moved zlib s { s.turn i (.holding token tokenTmp data) with recvQueue := rest } none
  | returned (i : ι) (token : UInt32) (data : List UInt8) (rest : List (UInt32 × List UInt8))
    (hi : s.callers i = .waiting token) (hqueue : s.recvQueue = (token, data) :: rest) :
    Moved zlib s { s.turn i .outside with recvQueue := rest } (some (.returned i token data))
  | put (i : ι) (token tokenTmp : UInt32) (data : List UInt8)
    (hi : s.callers i = .holding token tokenTmp data) :
    Moved zlib s
      { s.turn i (.waiting token) with recvQueue := s.recvQueue ++ [(tokenTmp, data)] } none
  | transmitted (packet : Packet) (rest : List Packet) (hqueue : s.sendQueue = packet :: rest)
    (hsize : packet.payload.length < 2 ^ 32) :
    Moved zlib s { s with sendQueue := rest, running := true } (some (.transmitted packet))
  | pong (packet : Packet) (hop : packet.opcode = 10) :
    Moved zlib s { s with sendQueue := s.sendQueue ++ [⟨9, packet.payload⟩] } none
  | received (packet : Packet) (token : UInt32) (data : List UInt8)
    (hsize : packet.payload.length < 2 ^ 32) (hop : packet.opcode ≠ 10)
    (hr : socket_run zlib packet.encode = some (token, data)) :
    Moved zlib s { s with recvQueue := s.recvQueue ++ [(token, data)] } (some (.received token data))
  | ended (queue : List Packet) (hqueue : queue <:+ s.sendQueue) :
    Moved zlib s { s with sendQueue := queue, running := false } none

theorem step_moved (h : step zlib s a = some t) : Moved zlib s t (seen zlib s a) := by
  cases a with
  | call i request =>
    rw [step] at h
    split at h
    case h_1 hi =>
      cases h
      exact .called i request hi
    case h_2 => cases h
  | storeToken i =>
    rw [step] at h
    split at h
    case h_1 request g_token hi =>
      cases h
      exact .stored i request g_token hi
    case h_2 => cases h
  | loadToken i =>
    rw [step] at h
    split at h
    case h_1 request hi =>
      cases h
      exact .loaded i request hi
    case h_2 => cases h
  | send i =>
    rw [step] at h
    split at h
    case h_1 request token hi =>
      have hseen : seen zlib s (.send i)
          = some (if token < 2 ^ 32 then .sent i (UInt32.ofNat token) request else .failed i) := by
        rw [seen, hi]
      rw [hseen]
      split at h
      case isTrue htoken =>
        cases h
        rw [if_pos htoken]
        exact .sent i request token hi htoken
      case isFalse htoken =>
        cases h
        rw [if_neg htoken]
        exact .failed i request token hi
    case h_2 => cases h
  | get i =>
    rw [step] at h
    split at h
    case h_1 token tokenTmp data rest hi hqueue =>
      have hseen : seen zlib s (.get i)
          = if tokenTmp ≠ token then none else some (.returned i token data) := by
        rw [seen, hi, hqueue]
      rw [hseen]
      by_cases hne : tokenTmp ≠ token
      · rw [if_pos hne] at h ⊢
        cases h
        exact .took i token tokenTmp data rest hi hqueue hne
      · rw [if_neg hne] at h ⊢
        cases h
        obtain rfl := not_not.mp hne
        exact .returned i tokenTmp data rest hi hqueue
    case h_2 => cases h
  | put i =>
    rw [step] at h
    split at h
    case h_1 token tokenTmp data hi =>
      cases h
      exact .put i token tokenTmp data hi
    case h_2 => cases h
  | transmit =>
    rw [step] at h
    split at h
    case h_1 packet rest hrun hqueue =>
      have hseen : seen zlib s .transmit
          = if packet.payload.length < 2 ^ 32 then some (.transmitted packet) else none := by
        rw [seen, hqueue]
      rw [hseen]
      by_cases hsize : packet.payload.length < 2 ^ 32
      · rw [decide_eq_true hsize] at h
        rw [if_pos hsize]
        cases h
        exact .transmitted packet rest hqueue hsize
      · rw [decide_eq_false hsize] at h
        rw [if_neg hsize]
        cases h
        exact .ended rest (by rw [hqueue]; exact List.suffix_cons packet rest)
    case h_2 => cases h
  | receive packet =>
    rw [step] at h
    split at h
    case isTrue hrun =>
      by_cases hop : packet.opcode = 10
      · rw [if_pos hop] at h
        rw [seen, if_pos hop]
        cases h
        exact .pong packet hop
      · rw [if_neg hop] at h
        rw [seen, if_neg hop]
        split at h
        case h_1 r hr =>
          cases h
          rw [hr]
          exact .received packet r.1 r.2 hrun.2 hop hr
        case h_2 hr =>
          cases h
          rw [hr]
          exact .ended s.sendQueue (List.suffix_refl _)
    case isFalse => cases h

/-- What is put into the send queue is a request that a thread sends, or a pong. -/
theorem queue_moved (hm : Moved zlib s t e) {p : Packet} (hp : p ∈ t.sendQueue) :
    p ∈ s.sendQueue ∨ p.opcode = 9
      ∨ ∃ i token request, e = some (.sent i token request) ∧ p = request.packet zlib token := by
  cases hm with
  | sent i request token hi htoken =>
    rcases List.mem_append.mp hp with hp | hp
    · exact Or.inl hp
    · exact Or.inr (Or.inr ⟨i, _, request, rfl, List.mem_singleton.mp hp⟩)
  | transmitted packet rest hqueue hsize =>
    rw [hqueue]
    exact Or.inl (List.mem_cons_of_mem packet hp)
  | pong packet hop =>
    rcases List.mem_append.mp hp with hp | hp
    · exact Or.inl hp
    · rw [List.mem_singleton.mp hp]
      exact Or.inr (Or.inl rfl)
  | ended queue hqueue => exact Or.inl (hqueue.subset hp)
  | _ => exact Or.inl hp

/-! ## Tokens -/

theorem callers_turn {i j : ι} {c d : Caller} :
    (s.turn i c).callers j = d ↔ j = i ∧ c = d ∨ j ≠ i ∧ s.callers j = d := by
  by_cases hj : j = i
  · subst hj
    have hself : (s.turn j c).callers j = c := Function.update_self _ _ _
    rw [hself]
    exact ⟨fun h => Or.inl ⟨rfl, h⟩, fun h => h.elim And.right fun h => absurd rfl h.1⟩
  · have hother : (s.turn i c).callers j = s.callers j := Function.update_of_ne hj _ _
    rw [hother]
    exact ⟨fun h => Or.inr ⟨hj, h⟩, fun h => h.elim (fun h => absurd h.1 hj) And.right⟩

/-- Two threads are not in `getToken` at once. -/
def Exclusive (s : PythonThreads ι) : Prop :=
  ∀ i j, (s.callers i).inGetToken = true → (s.callers j).inGetToken = true → i = j

/-- No step brings two threads into `getToken`. -/
def Alone (_ : PythonThreads ι) (_ : Step ι) (t : PythonThreads ι) : Prop := t.Exclusive

/-- The token that an event sends. -/
def Seen.token : Seen ι → Option UInt32
  | .sent _ token _ => some token
  | _ => none

variable {es : List (Seen ι)}

/-- What the counter has to do with the tokens that have been sent and those that will be. -/
structure Tokens (s : PythonThreads ι) (es : List (Seen ι)) : Prop where
  alone : s.Exclusive
  adding : ∀ i request g_token, s.callers i = .adding request g_token → g_token = s.g_token
  sent : ∀ token ∈ es.filterMap Seen.token, token.toNat ≤ s.g_token
    ∧ ∀ i request, s.callers i ≠ .hasToken request token.toNat
  had : ∀ i request token, s.callers i = .hasToken request token → token ≤ s.g_token
    ∧ ∀ j request', s.callers j = .hasToken request' token → j = i
  fresh : ∀ i request, s.callers i = .added request →
    (∀ token ∈ es.filterMap Seen.token, token.toNat < s.g_token)
      ∧ ∀ j request' token, s.callers j = .hasToken request' token → token < s.g_token
  nodup : (es.filterMap Seen.token).Nodup

omit [DecidableEq ι] in
theorem filterMap_token {e : Seen ι} (he : e.token = none) :
    (es ++ [e]).filterMap Seen.token = es.filterMap Seen.token := by
  rw [List.filterMap_append, List.filterMap_cons, he, List.filterMap_nil, List.append_nil]

omit [DecidableEq ι] in
/-- A step that has nothing to do with the counter. -/
theorem Tokens.keeps (h : Tokens s es) {fs : List (Seen ι)} (hg : t.g_token = s.g_token)
    (hcallers : ∀ j, t.callers j = s.callers j ∨ (t.callers j).elsewhere = true)
    (hfs : fs.filterMap Seen.token = es.filterMap Seen.token) : Tokens t fs := by
  have hsame : ∀ {j : ι} {c : Caller}, t.callers j = c → c.elsewhere = false → s.callers j = c := by
    intro j c hj hc
    rcases hcallers j with heq | helse
    · rw [← heq, hj]
    · rw [hj, hc] at helse
      cases helse
  have hin : ∀ {j : ι}, (t.callers j).inGetToken = true → (s.callers j).inGetToken = true := by
    intro j hj
    rcases hcallers j with heq | helse
    · rwa [← heq]
    · cases hc : t.callers j with
      | adding request g_token =>
        rw [hc] at helse
        cases helse
      | added request =>
        rw [hc] at helse
        cases helse
      | _ =>
        rw [hc] at hj
        cases hj
  refine ⟨fun i j hi hj => h.alone i j (hin hi) (hin hj), fun i request g_token hi => ?_,
    fun token htoken => ?_, fun i request token hi => ?_, fun i request hi => ?_, ?_⟩
  · rw [hg]
    exact h.adding i request g_token (hsame hi rfl)
  · rw [hfs] at htoken
    rw [hg]
    obtain ⟨hle, hnot⟩ := h.sent token htoken
    exact ⟨hle, fun i request hi => hnot i request (hsame hi rfl)⟩
  · rw [hg]
    obtain ⟨hle, hother⟩ := h.had i request token (hsame hi rfl)
    exact ⟨hle, fun j request' hj => hother j request' (hsame hj rfl)⟩
  · rw [hfs, hg]
    obtain ⟨hsent, hhad⟩ := h.fresh i request (hsame hi rfl)
    exact ⟨hsent, fun j request' token hj => hhad j request' token (hsame hj rfl)⟩
  · rw [hfs]
    exact h.nodup

theorem elsewhere_turn (i : ι) {c : Caller} (hc : c.elsewhere = true) (j : ι) :
    (s.turn i c).callers j = s.callers j ∨ ((s.turn i c).callers j).elsewhere = true := by
  by_cases hj : j = i
  · subst hj
    rw [callers_turn.mpr (Or.inl ⟨rfl, rfl⟩)]
    exact Or.inr hc
  · exact Or.inl (callers_turn.mpr (Or.inr ⟨hj, rfl⟩))

theorem Tokens.moved (h : Tokens s es) (hm : Moved zlib s t e) (hok : Alone s a t) :
    Tokens t (es ++ e.toList) := by
  cases hm with
  | called i request hi =>
    refine ⟨hok, fun j request' g_token hj => ?_, fun token htoken => ?_,
      fun j request' token hj => ?_, fun j request' hj => ?_, ?_⟩
    · rcases callers_turn.mp hj with ⟨rfl, hc⟩ | ⟨-, hj⟩
      · cases hc
        rfl
      · exact h.adding j request' g_token hj
    · rw [Option.toList_some, filterMap_token rfl] at htoken
      obtain ⟨hle, hnot⟩ := h.sent token htoken
      refine ⟨hle, fun j request' hj => ?_⟩
      rcases callers_turn.mp hj with ⟨-, hc⟩ | ⟨-, hj⟩
      · cases hc
      · exact hnot j request' hj
    · rcases callers_turn.mp hj with ⟨-, hc⟩ | ⟨-, hj⟩
      · cases hc
      · obtain ⟨hle, hother⟩ := h.had j request' token hj
        refine ⟨hle, fun k request'' hk => ?_⟩
        rcases callers_turn.mp hk with ⟨-, hc⟩ | ⟨-, hk⟩
        · cases hc
        · exact hother k request'' hk
    · rcases callers_turn.mp hj with ⟨-, hc⟩ | ⟨-, hj⟩
      · cases hc
      · rw [Option.toList_some, filterMap_token rfl]
        obtain ⟨hsent, hhad⟩ := h.fresh j request' hj
        refine ⟨hsent, fun k request'' token hk => ?_⟩
        rcases callers_turn.mp hk with ⟨-, hc⟩ | ⟨-, hk⟩
        · cases hc
        · exact hhad k request'' token hk
    · rw [Option.toList_some, filterMap_token rfl]
      exact h.nodup
  | stored i request g_token hi =>
    obtain rfl := h.adding i request g_token hi
    rw [Option.toList_none, List.append_nil]
    have hhas : ∀ {j : ι} {request' : Request} {token : ℕ},
        (s.turn i (.added request)).callers j = .hasToken request' token →
        s.callers j = .hasToken request' token := by
      intro j request' token hj
      rcases callers_turn.mp hj with ⟨-, hc⟩ | ⟨-, hj⟩
      · cases hc
      · exact hj
    refine ⟨hok, fun j request' g_token hj => ?_, fun token htoken => ?_,
      fun j request' token hj => ?_, fun j request' hj => ?_, h.nodup⟩
    · rcases callers_turn.mp hj with ⟨-, hc⟩ | ⟨hne, hj⟩
      · cases hc
      · exact absurd (h.alone j i (by rw [hj]; rfl) (by rw [hi]; rfl)) hne
    · obtain ⟨hle, hnot⟩ := h.sent token htoken
      exact ⟨Nat.le_succ_of_le hle, fun j request' hj => hnot j request' (hhas hj)⟩
    · obtain ⟨hle, hother⟩ := h.had j request' token (hhas hj)
      exact ⟨Nat.le_succ_of_le hle, fun k request'' hk => hother k request'' (hhas hk)⟩
    · exact ⟨fun token htoken => Nat.lt_succ_of_le (h.sent token htoken).1,
        fun k request'' token hk => Nat.lt_succ_of_le (h.had k request'' token (hhas hk)).1⟩
  | loaded i request hi =>
    rw [Option.toList_none, List.append_nil]
    obtain ⟨hsent, hhad⟩ := h.fresh i request hi
    refine ⟨hok, fun j request' g_token hj => ?_, fun token htoken => ?_,
      fun j request' token hj => ?_, fun j request' hj => ?_, h.nodup⟩
    · rcases callers_turn.mp hj with ⟨-, hc⟩ | ⟨-, hj⟩
      · cases hc
      · exact h.adding j request' g_token hj
    · refine ⟨(h.sent token htoken).1, fun j request' hj => ?_⟩
      rcases callers_turn.mp hj with ⟨-, hc⟩ | ⟨-, hj⟩
      · obtain ⟨-, heq⟩ := Caller.hasToken.inj hc
        have hlt := hsent token htoken
        rw [heq] at hlt
        exact absurd hlt (Nat.lt_irrefl _)
      · exact (h.sent token htoken).2 j request' hj
    · rcases callers_turn.mp hj with ⟨rfl, hc⟩ | ⟨hne, hj⟩
      · cases hc
        refine ⟨Nat.le_refl _, fun k request'' hk => ?_⟩
        rcases callers_turn.mp hk with ⟨rfl, -⟩ | ⟨-, hk⟩
        · rfl
        · exact absurd (hhad k request'' _ hk) (Nat.lt_irrefl _)
      · refine ⟨(h.had j request' token hj).1, fun k request'' hk => ?_⟩
        rcases callers_turn.mp hk with ⟨-, hc⟩ | ⟨-, hk⟩
        · cases hc
          exact absurd (hhad j request' _ hj) (Nat.lt_irrefl _)
        · exact (h.had j request' token hj).2 k request'' hk
    · rcases callers_turn.mp hj with ⟨-, hc⟩ | ⟨hne, hj⟩
      · cases hc
      · exact absurd (h.alone j i (by rw [hj]; rfl) (by rw [hi]; rfl)) hne
  | sent i request token hi htoken =>
    have hmod : (UInt32.ofNat token).toNat = token := UInt32.toNat_ofNat_of_lt' htoken
    have hlist : (es ++ [Seen.sent i (UInt32.ofNat token) request]).filterMap Seen.token
        = es.filterMap Seen.token ++ [UInt32.ofNat token] := by
      rw [List.filterMap_append]
      rfl
    have hother : ∀ {j : ι} {c : Caller}, (s.turn i (.waiting (UInt32.ofNat token))).callers j = c →
        c.elsewhere = false → j ≠ i ∧ s.callers j = c := by
      intro j c hj hc
      rcases callers_turn.mp hj with ⟨-, rfl⟩ | hj
      · cases hc
      · exact hj
    obtain ⟨hle, hmine⟩ := h.had i request token hi
    refine ⟨hok, fun j request' g_token hj => h.adding j request' g_token (hother hj rfl).2,
      fun token' htoken' => ?_, fun j request' token' hj => ?_, fun j request' hj => ?_, ?_⟩
    · rw [Option.toList_some, hlist] at htoken'
      rcases List.mem_append.mp htoken' with htoken' | htoken'
      · obtain ⟨hle', hnot⟩ := h.sent token' htoken'
        exact ⟨hle', fun j request' hj => hnot j request' (hother hj rfl).2⟩
      · rw [List.mem_singleton.mp htoken', hmod]
        refine ⟨hle, fun j request' hj => ?_⟩
        obtain ⟨hne, hj⟩ := hother hj rfl
        exact hne (hmine j request' hj)
    · obtain ⟨hle', honly⟩ := h.had j request' token' (hother hj rfl).2
      exact ⟨hle', fun k request'' hk => honly k request'' (hother hk rfl).2⟩
    · obtain ⟨hsent, hhad⟩ := h.fresh j request' (hother hj rfl).2
      refine ⟨fun token' htoken' => ?_, fun k request'' token' hk =>
        hhad k request'' token' (hother hk rfl).2⟩
      rw [Option.toList_some, hlist] at htoken'
      rcases List.mem_append.mp htoken' with htoken' | htoken'
      · exact hsent token' htoken'
      · rw [List.mem_singleton.mp htoken', hmod]
        exact hhad i request token hi
    · rw [Option.toList_some, hlist]
      refine List.nodup_append'.mpr ⟨h.nodup, List.nodup_singleton _, fun token' htoken' hlast => ?_⟩
      obtain rfl := List.mem_singleton.mp hlast
      exact (h.sent _ htoken').2 i request (by rw [hmod]; exact hi)
  | failed i request token hi => exact h.keeps rfl (elsewhere_turn i rfl) (filterMap_token rfl)
  | took i token tokenTmp data rest hi hqueue hne =>
    exact h.keeps rfl (elsewhere_turn i rfl) (by rw [Option.toList_none, List.append_nil])
  | returned i token data rest hi hqueue =>
    exact h.keeps rfl (elsewhere_turn i rfl) (filterMap_token rfl)
  | put i token tokenTmp data hi =>
    exact h.keeps rfl (elsewhere_turn i rfl) (by rw [Option.toList_none, List.append_nil])
  | transmitted packet rest hqueue hsize =>
    exact h.keeps rfl (fun _ => Or.inl rfl) (filterMap_token rfl)
  | received packet token data hsize hop hr =>
    exact h.keeps rfl (fun _ => Or.inl rfl) (filterMap_token rfl)
  | _ => exact h.keeps rfl (fun _ => Or.inl rfl) (by rw [Option.toList_none, List.append_nil])

theorem shows_tokens (hs : Quiet s) (h : (client zlib).Shows Alone (seen zlib) s es t) :
    Tokens t es := by
  have hstart : Tokens s [] := by
    refine ⟨fun i j hi => ?_, fun i request g_token hi => ?_, fun token htoken => ?_,
      fun i request token hi => ?_, fun i request hi => ?_, List.nodup_nil⟩
    · rw [hs.callers] at hi
      cases hi
    · rw [hs.callers] at hi
      cases hi
    · cases htoken
    · rw [hs.callers] at hi
      cases hi
    · rw [hs.callers] at hi
      cases hi
  refine h.invariant Tokens ?_ hstart
  exact fun u es a v hu hok hstep => hu.moved (step_moved hstep) hok

/-- Two calls of `getToken` that overlap may give the same token, whatever the counter is. -/
theorem shared_token {i j : ι} (hne : i ≠ j) (hi : s.callers i = .outside)
    (hj : s.callers j = .outside) (request request' : Request) (hg : s.g_token + 1 < 2 ^ 32) :
    ∃ t, (client zlib).Shows (fun _ _ _ => True) (seen zlib) s
      [.called i request, .called j request', .sent i (UInt32.ofNat (s.g_token + 1)) request,
        .sent j (UInt32.ofNat (s.g_token + 1)) request'] t := by
  have hji := Ne.symm hne
  have hlt : s.g_token + 1 < 4294967296 := hg
  have hrun : ∃ t, (client zlib).observe (seen zlib) (fun _ _ => true) s
      [.call i request, .call j request', .storeToken i, .storeToken j, .loadToken i, .loadToken j,
        .send i, .send j]
      = some ([.called i request, .called j request', .sent i (UInt32.ofNat (s.g_token + 1)) request,
        .sent j (UInt32.ofNat (s.g_token + 1)) request'], t) := by
    simp [Machine.observe, client, step, seen, turn, hi, hj, hne, hji, hlt]
  obtain ⟨t, hrun⟩ := hrun
  exact ⟨t, .of_observe (fun _ _ _ _ _ => trivial) hrun⟩

end PythonThreads

end TransDB
