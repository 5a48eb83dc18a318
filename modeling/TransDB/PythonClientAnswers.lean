/-
`transDB.py`: what a thread returns.

A thread returns the data that have been received for its token, and as long as no two
calls of `getToken` overlap the token is its own (`own_data`). In any run the data that have
been received are either returned, in the queue or with a thread that puts them back
(`received_kept`), so a thread whose data have come can still return them, however often
the others have taken them (`can_return`).
-/
import TransDB.PythonClientQueue
import Mathlib.Algebra.BigOperators.Group.Finset.Basic
import Mathlib.Data.Fintype.BigOperators
import Mathlib.Tactic.Abel

set_option autoImplicit false

namespace TransDB

open PythonClient

/-- The data that a thread has to put back. -/
def Caller.held : Caller → Multiset (UInt32 × List UInt8)
  | .holding _ tokenTmp data => {(tokenTmp, data)}
  | _ => 0

namespace PythonThreads

variable {ι : Type} [DecidableEq ι] {zlib : Zlib} {s t : PythonThreads ι} {a : Step ι}
  {e : Option (Seen ι)} {es : List (Seen ι)}

/-! ## What a thread returns -/

/-- The thread has sent a request with the token, and has done nothing else since. -/
def Waits (i : ι) (token : UInt32) (es : List (Seen ι)) : Prop :=
  ∃ before request since, es = before ++ .sent i token request :: since
    ∧ ∀ e ∈ since, e.thread ≠ some i

variable {i j : ι} {token : UInt32} {data : List UInt8} {pre post : List (Seen ι)}

omit [DecidableEq ι] in
theorem Waits.append (h : Waits i token es) {fs : List (Seen ι)}
    (hfs : ∀ e ∈ fs, e.thread ≠ some i) : Waits i token (es ++ fs) := by
  obtain ⟨before, request, since, rfl, hsince⟩ := h
  refine ⟨before, request, since ++ fs, by rw [List.append_assoc, List.cons_append], fun e he => ?_⟩
  rcases List.mem_append.mp he with he | he
  · exact hsince e he
  · exact hfs e he

/-- The token that a thread waits for. -/
def waitsFor (s : PythonThreads ι) (i : ι) : Option UInt32 :=
  match s.callers i with
  | .waiting token | .holding token _ _ => some token
  | _ => none

/-- Every thread that waits has sent its request. -/
def Remembers (s : PythonThreads ι) (es : List (Seen ι)) : Prop :=
  ∀ i token, s.waitsFor i = some token → Waits i token es

theorem waitsFor_turn_self (i : ι) (c : Caller) : (s.turn i c).waitsFor i
    = match c with
      | .waiting token | .holding token _ _ => some token
      | _ => none := by
  have hself : (s.turn i c).callers i = c := Function.update_self _ _ _
  rw [waitsFor, hself]

theorem waitsFor_turn_ne (c : Caller) (hj : j ≠ i) : (s.turn i c).waitsFor j = s.waitsFor j := by
  have hother : (s.turn i c).callers j = s.callers j := Function.update_of_ne hj _ _
  rw [waitsFor, hother]
  rfl

/-- Another thread goes on waiting. -/
theorem Remembers.turned (h : Remembers s es) {c : Caller} {fs : List (Seen ι)}
    (ht : t.callers = (s.turn i c).callers) (hfs : ∀ e ∈ fs, e.thread = some i)
    (hi : ∀ token, t.waitsFor i = some token → Waits i token (es ++ fs)) :
    Remembers t (es ++ fs) := by
  intro j token hj
  by_cases hji : j = i
  · subst hji
    exact hi token hj
  · have hsame : t.waitsFor j = s.waitsFor j := by
      rw [← waitsFor_turn_ne (s := s) c hji, waitsFor, waitsFor, ht]
    rw [hsame] at hj
    refine (h j token hj).append fun e he heq => hji ?_
    rw [hfs e he] at heq
    exact (Option.some.inj heq).symm

theorem Remembers.moved (h : Remembers s es) (hm : Moved zlib s t e) :
    Remembers t (es ++ e.toList) := by
  have hnone : ∀ {u : PythonThreads ι} {k : ι} {c : Caller} {fs : List (Seen ι)},
      u.callers = (s.turn k c).callers → c.elsewhere = false → (∀ e ∈ fs, e.thread = some k) →
      Remembers u (es ++ fs) := by
    intro u k c fs hu hc hfs
    refine h.turned hu hfs fun token hk => ?_
    have hk : (s.turn k c).waitsFor k = some token := by
      rw [← hk, waitsFor, waitsFor, hu]
    rw [waitsFor_turn_self] at hk
    cases c with
    | waiting _ => cases hc
    | holding _ _ _ => cases hc
    | _ => cases hk
  have hout : ∀ {u : PythonThreads ι} {k : ι} {fs : List (Seen ι)},
      u.callers = (s.turn k .outside).callers → (∀ e ∈ fs, e.thread = some k) →
      Remembers u (es ++ fs) := by
    intro u k fs hu hfs
    refine h.turned hu hfs fun token hk => ?_
    have hk : (s.turn k .outside).waitsFor k = some token := by
      rw [← hk, waitsFor, waitsFor, hu]
    rw [waitsFor_turn_self] at hk
    cases hk
  have hown : ∀ {k : ι} {f : Seen ι}, f.thread = some k →
      ∀ e ∈ (some f).toList, e.thread = some k := by
    intro k f hf e he
    rw [Option.toList_some, List.mem_singleton] at he
    rw [he, hf]
  cases hm with
  | called i request hi => exact hnone rfl rfl (hown rfl)
  | stored i request g_token hi => exact hnone rfl rfl (List.forall_mem_nil _)
  | loaded i request hi => exact hnone rfl rfl (List.forall_mem_nil _)
  | sent i request token hi htoken =>
    refine h.turned rfl (hown rfl) fun token' hk => ?_
    have hk : (s.turn i (.waiting (UInt32.ofNat token))).waitsFor i = some token' := hk
    rw [waitsFor_turn_self] at hk
    cases hk
    exact ⟨es, request, [], rfl, List.forall_mem_nil _⟩
  | failed i request token hi => exact hout rfl (hown rfl)
  | took i token tokenTmp data rest hi hqueue hne =>
    refine h.turned rfl (List.forall_mem_nil _) fun token' hk => ?_
    have hk : (s.turn i (.holding token tokenTmp data)).waitsFor i = some token' := hk
    rw [waitsFor_turn_self] at hk
    cases hk
    rw [Option.toList_none, List.append_nil]
    exact h i token (by rw [waitsFor, hi])
  | returned i token data rest hi hqueue => exact hout rfl (hown rfl)
  | put i token tokenTmp data hi =>
    refine h.turned rfl (List.forall_mem_nil _) fun token' hk => ?_
    have hk : (s.turn i (.waiting token)).waitsFor i = some token' := hk
    rw [waitsFor_turn_self] at hk
    cases hk
    rw [Option.toList_none, List.append_nil]
    exact h i token (by rw [waitsFor, hi])
  | transmitted packet rest hqueue hsize =>
    intro i token hi
    refine (h i token hi).append fun e he => ?_
    rw [Option.toList_some, List.mem_singleton] at he
    rw [he]
    exact (Option.some_ne_none i).symm
  | received packet token data hsize hop hr =>
    intro i token hi
    refine (h i token hi).append fun e he => ?_
    rw [Option.toList_some, List.mem_singleton] at he
    rw [he]
    exact (Option.some_ne_none i).symm
  | _ =>
    intro i token hi
    rw [Option.toList_none, List.append_nil]
    exact h i token hi

variable {ok : PythonThreads ι → Step ι → PythonThreads ι → Prop}

theorem shows_remembers (hs : Quiet s) (h : (client zlib).Shows ok (seen zlib) s es t) :
    Remembers t es := by
  refine h.invariant Remembers ?_ fun i token hi => ?_
  · exact fun u es a v hu _ hstep => hu.moved (step_moved hstep)
  · rw [waitsFor, hs.callers] at hi
    cases hi

theorem returned_waits (hs : Quiet s) (h : (client zlib).Shows ok (seen zlib) s es t)
    (hes : es = pre ++ .returned i token data :: post) : Waits i token pre := by
  obtain ⟨u, a, v, hpre, -, hstep, hseen, -⟩ := h.split hes
  have hm := step_moved hstep
  rw [hseen] at hm
  cases hm with
  | returned _ _ _ rest hi hqueue =>
    exact shows_remembers hs hpre i token (by rw [waitsFor, hi])

/-! ## Nothing is lost -/

/-- The data that come with an event. -/
def Seen.comes : Seen ι → Option (UInt32 × List UInt8)
  | .received token data => some (token, data)
  | _ => none

/-- The data that a thread returns. -/
def Seen.goes : Seen ι → Option (UInt32 × List UInt8)
  | .returned _ token data => some (token, data)
  | _ => none

variable [Fintype ι]

/-- The data that have been received and not been returned. -/
def kept (s : PythonThreads ι) : Multiset (UInt32 × List UInt8) :=
  (s.recvQueue : Multiset (UInt32 × List UInt8)) + ∑ i, (s.callers i).held

theorem held_turn (s : PythonThreads ι) (i : ι) (c : Caller) :
    ∑ j, ((s.turn i c).callers j).held + (s.callers i).held = ∑ j, (s.callers j).held + c.held := by
  have hmem := Finset.mem_univ i
  have hself : (s.turn i c).callers i = c := Function.update_self _ _ _
  have hother : ∀ j ∈ Finset.univ.erase i,
      ((s.turn i c).callers j).held = (s.callers j).held := by
    intro j hj
    have hsame : (s.turn i c).callers j = s.callers j :=
      Function.update_of_ne (Finset.ne_of_mem_erase hj) _ _
    rw [hsame]
  rw [← Finset.add_sum_erase _ _ hmem, ← Finset.add_sum_erase _ (fun j => (s.callers j).held) hmem,
    Finset.sum_congr rfl hother, hself]
  abel

/-- A thread goes on that had nothing to put back, and has nothing. -/
theorem kept_turn {c : Caller} (hi : (s.callers i).held = 0) (hc : c.held = 0)
    (hqueue : t.recvQueue = s.recvQueue) (ht : t.callers = (s.turn i c).callers) :
    s.kept = t.kept := by
  have hsum := held_turn s i c
  rw [hi, hc, add_zero, add_zero] at hsum
  rw [kept, kept, hqueue, ht, hsum]

/-- What comes is kept, or it goes. -/
theorem kept_moved (hm : Moved zlib s t e) :
    ((e.bind Seen.comes).toList : Multiset (UInt32 × List UInt8)) + s.kept
      = ((e.bind Seen.goes).toList : Multiset (UInt32 × List UInt8)) + t.kept := by
  cases hm with
  | called i request hi =>
    refine congrArg _ ?_
    exact kept_turn (by rw [hi]; rfl) rfl rfl rfl
  | stored i request g_token hi =>
    refine congrArg _ ?_
    exact kept_turn (by rw [hi]; rfl) rfl rfl rfl
  | loaded i request hi =>
    refine congrArg _ ?_
    exact kept_turn (by rw [hi]; rfl) rfl rfl rfl
  | sent i request token hi htoken =>
    refine congrArg _ ?_
    exact kept_turn (by rw [hi]; rfl) rfl rfl rfl
  | failed i request token hi =>
    refine congrArg _ ?_
    exact kept_turn (by rw [hi]; rfl) rfl rfl rfl
  | took i token tokenTmp data rest hi hqueue hne =>
    have hsum := held_turn s i (.holding token tokenTmp data)
    rw [hi] at hsum
    have hsum : ∑ j, ((s.turn i (.holding token tokenTmp data)).callers j).held + 0
      = ∑ j, (s.callers j).held + {(tokenTmp, data)} := hsum
    rw [add_zero] at hsum
    refine congrArg _ ?_
    rw [kept, kept, hqueue, hsum, ← Multiset.cons_coe, ← Multiset.singleton_add]
    abel
  | returned i token data rest hi hqueue =>
    have hsum := held_turn s i .outside
    rw [hi] at hsum
    have hsum : ∑ j, ((s.turn i .outside).callers j).held + 0 = ∑ j, (s.callers j).held + 0 := hsum
    rw [add_zero, add_zero] at hsum
    have hgoes : ((some (Seen.returned i token data)).bind Seen.goes).toList = [(token, data)] := rfl
    have hcomes : ((some (Seen.returned i token data)).bind Seen.comes).toList = [] := rfl
    rw [hgoes, hcomes, kept, kept, hqueue, hsum, Multiset.coe_nil, zero_add, Multiset.coe_singleton,
      ← Multiset.cons_coe, ← Multiset.singleton_add, add_assoc]
  | put i token tokenTmp data hi =>
    have hsum := held_turn s i (.waiting token)
    rw [hi] at hsum
    have hsum : ∑ j, ((s.turn i (.waiting token)).callers j).held + {(tokenTmp, data)}
      = ∑ j, (s.callers j).held + 0 := hsum
    rw [add_zero] at hsum
    refine congrArg _ ?_
    rw [kept, kept, ← hsum, ← Multiset.coe_add, Multiset.coe_singleton]
    abel
  | received packet token data hsize hop hr =>
    have hgoes : ((some (Seen.received (ι := ι) token data)).bind Seen.goes).toList = [] := rfl
    have hcomes : ((some (Seen.received (ι := ι) token data)).bind Seen.comes).toList
      = [(token, data)] := rfl
    rw [hgoes, hcomes, kept, kept, ← Multiset.coe_add, Multiset.coe_singleton, Multiset.coe_nil]
    abel
  | _ => rfl

/-- **The data that have been received are those that have been returned, those in the queue and
those that a thread puts back**, each as often. -/
theorem received_kept (hs : Quiet s) (h : (client zlib).Shows ok (seen zlib) s es t) :
    (es.filterMap Seen.comes : Multiset (UInt32 × List UInt8))
      = es.filterMap Seen.goes + t.kept := by
  have hview : ∀ (f : Seen ι → Option (UInt32 × List UInt8)) (o : Option (Seen ι)),
      o.toList.filterMap f = (o.bind f).toList := by
    intro f o
    cases o with
    | none => rfl
    | some e =>
      rw [Option.toList_some, Option.bind_some, List.filterMap_cons, List.filterMap_nil]
      cases f e <;> rfl
  refine h.invariant (fun t es => (es.filterMap Seen.comes : Multiset (UInt32 × List UInt8))
    = es.filterMap Seen.goes + t.kept) ?_ ?_
  · intro u es a v hu _ hstep
    have hmoved := kept_moved (step_moved hstep)
    rw [List.filterMap_append, List.filterMap_append, hview, hview, ← Multiset.coe_add,
      ← Multiset.coe_add, hu, add_assoc, add_comm u.kept, hmoved, add_assoc]
  · have hheld : ∑ i, (s.callers i).held = 0 :=
      Finset.sum_eq_zero fun i _ => by rw [hs.callers]; rfl
    rw [kept, hs.recvQueue, hheld]
    rfl

/-! ## A thread returns its own data -/

omit [DecidableEq ι] [Fintype ι] in
/-- No one waits for a token whose data have been returned. -/
theorem Waits.over {data : List UInt8} {mid : List (Seen ι)}
    (hnodup : ((pre ++ .returned i token data :: mid).filterMap Seen.token).Nodup)
    (h : Waits i token pre) : ¬ Waits j token (pre ++ .returned i token data :: mid) := by
  rintro ⟨before', request', since', hsplit, hsince'⟩
  obtain ⟨before, request, since, rfl, -⟩ := h
  obtain ⟨-, hsent, rfl⟩ := List.split_once hnodup rfl rfl
    (List.append_assoc before (.sent i token request :: since) _) hsplit
  cases hsent
  exact hsince' (.returned i token data) (List.mem_append_right since List.mem_cons_self) rfl

theorem returned_received (hs : Quiet s) (h : (client zlib).Shows ok (seen zlib) s es t)
    (hes : es = pre ++ .returned i token data :: post) : .received token data ∈ pre := by
  obtain ⟨u, a, v, hpre, -, hstep, hseen, -⟩ := h.split hes
  have hm := step_moved hstep
  rw [hseen] at hm
  cases hm with
  | returned _ _ _ rest hi hqueue =>
    have hmem : (token, data) ∈ (pre.filterMap Seen.comes : Multiset (UInt32 × List UInt8)) := by
      rw [received_kept hs hpre, kept, hqueue]
      exact Multiset.mem_add.mpr (Or.inr (Multiset.mem_add.mpr (Or.inl List.mem_cons_self)))
    obtain ⟨e, he, hcomes⟩ := List.mem_filterMap.mp hmem
    cases e with
    | received token' data' =>
      cases hcomes
      exact he
    | _ => cases hcomes

omit [Fintype ι] in
/-- The request whose token a thread returns data for is its own, and the only one with the
token. -/
theorem returned_own (hs : Quiet s) (h : (client zlib).Shows Alone (seen zlib) s es t)
    (hes : es = pre ++ .returned i token data :: post) :
    ∃ before request since, pre = before ++ .sent i token request :: since
      ∧ (∀ e ∈ since, e.thread ≠ some i)
      ∧ ∀ j request', .sent j token request' ∈ es → j = i ∧ request' = request := by
  obtain ⟨before, request, since, hsplit, hsince⟩ := returned_waits hs h hes
  refine ⟨before, request, since, hsplit, hsince, fun j request' hmem => ?_⟩
  obtain ⟨before', since', hsplit'⟩ := List.append_of_mem hmem
  rw [hsplit, List.append_assoc, List.cons_append] at hes
  obtain ⟨-, hsent, -⟩ := List.split_once (shows_tokens hs h).nodup rfl rfl hes hsplit'
  cases hsent
  exact ⟨rfl, rfl⟩

omit [Fintype ι] in
theorem returned_once (hs : Quiet s) (h : (client zlib).Shows Alone (seen zlib) s es t)
    (hes : es = pre ++ .returned i token data :: post) (j : ι) (data' : List UInt8) :
    .returned j token data' ∉ pre ++ post := by
  intro hmem
  have hnodup := (shows_tokens hs h).nodup
  have hwaits := returned_waits hs h hes
  rcases List.mem_append.mp hmem with hmem | hmem
  · obtain ⟨first, mid, rfl⟩ := List.append_of_mem hmem
    have hsplit : es = first ++ .returned j token data'
        :: (mid ++ .returned i token data :: post) := by
      rw [hes, List.append_assoc, List.cons_append]
    refine (returned_waits hs h hsplit).over (hnodup.sublist ?_) hwaits
    rw [hes]
    exact (List.sublist_append_left _ _).filterMap Seen.token
  · obtain ⟨mid, last, rfl⟩ := List.append_of_mem hmem
    have hsplit : es = (pre ++ .returned i token data :: mid) ++ .returned j token data' :: last := by
      rw [hes, List.append_assoc, List.cons_append]
    refine hwaits.over (hnodup.sublist ?_) (returned_waits hs h hsplit)
    rw [hsplit]
    exact (List.sublist_append_left _ _).filterMap Seen.token

/-- **A thread returns its own data**, if no two calls of `getToken` overlap: it has sent one
request with the token and has done nothing else since, no other request has the token, the
data have been received, and no thread returns any for the token again. -/
theorem own_data (hs : Quiet s) (h : (client zlib).Shows Alone (seen zlib) s es t)
    (hes : es = pre ++ .returned i token data :: post) :
    .received token data ∈ pre
      ∧ (∃ before request since, pre = before ++ .sent i token request :: since
        ∧ (∀ e ∈ since, e.thread ≠ some i)
        ∧ ∀ j request', .sent j token request' ∈ es → j = i ∧ request' = request)
      ∧ ∀ j data', .returned j token data' ∉ pre ++ post :=
  ⟨returned_received hs h hes, returned_own hs h hes, returned_once hs h hes⟩

/-! ## A thread can return -/

omit [Fintype ι] in
theorem Exclusive.turn (h : Exclusive s) {c : Caller} (hc : c.inGetToken = false)
    (ht : t.callers = (s.turn i c).callers) : Exclusive t := by
  have hin : ∀ {j : ι}, (t.callers j).inGetToken = true → (s.callers j).inGetToken = true := by
    intro j hj
    rw [ht] at hj
    by_cases hji : j = i
    · subst hji
      rw [callers_turn.mpr (Or.inl ⟨rfl, rfl⟩), hc] at hj
      cases hj
    · rwa [callers_turn.mpr (Or.inr ⟨hji, rfl⟩)] at hj
  exact fun j k hj hk => h j k (hin hj) (hin hk)

omit [Fintype ι] in
theorem shows_single (h : Exclusive t) (hstep : step zlib s a = some t) (hseen : seen zlib s a = e) :
    (client zlib).Shows Alone (seen zlib) s e.toList t := by
  rw [← hseen]
  exact .single h hstep

omit [Fintype ι] in
/-- A thread puts back what it has got. -/
theorem exists_put (h : Exclusive s) {r : UInt32 × List UInt8}
    (hi : s.callers i = .holding token r.1 r.2) :
    ∃ t, (client zlib).Shows Alone (seen zlib) s [] t ∧ Exclusive t
      ∧ t.callers = (s.turn i (.waiting token)).callers ∧ t.recvQueue = s.recvQueue ++ [r] := by
  have hstep : step zlib s (.put i)
      = some { s.turn i (.waiting token) with recvQueue := s.recvQueue ++ [r] } := by
    rw [step, hi]
  have hone : Exclusive { s.turn i (.waiting token) with recvQueue := s.recvQueue ++ [r] } :=
    h.turn (c := .waiting token) (i := i) rfl rfl
  exact ⟨_, shows_single hone hstep rfl, hone, rfl, rfl⟩

omit [Fintype ι] in
/-- A thread gets its data. -/
theorem exists_get (zlib : Zlib) (h : Exclusive s) (hi : s.callers i = .waiting token)
    {rest : List (UInt32 × List UInt8)} (hqueue : s.recvQueue = (token, data) :: rest) :
    ∃ t, (client zlib).Shows Alone (seen zlib) s [.returned i token data] t := by
  have hstep : step zlib s (.get i) = some { s.turn i .outside with recvQueue := rest } := by
    rw [step, hi, hqueue]
    dsimp only
    rw [if_neg (not_not.mpr rfl)]
  have hseen : seen zlib s (.get i) = some (.returned i token data) := by
    rw [seen, hi, hqueue]
    exact if_neg (not_not.mpr rfl)
  have hone : Exclusive { s.turn i .outside with recvQueue := rest } :=
    h.turn (c := .outside) (i := i) rfl rfl
  exact ⟨_, shows_single hone hstep hseen⟩

omit [Fintype ι] in
/-- A thread gets the data of another one and puts them back. -/
theorem exists_pass (zlib : Zlib) (h : Exclusive s) (hi : s.callers i = .waiting token)
    {r : UInt32 × List UInt8} {rest : List (UInt32 × List UInt8)} (hqueue : s.recvQueue = r :: rest)
    (hne : r.1 ≠ token) :
    ∃ t, (client zlib).Shows Alone (seen zlib) s [] t ∧ Exclusive t
      ∧ t.callers i = .waiting token ∧ t.recvQueue = rest ++ [r] := by
  have hstep : step zlib s (.get i)
      = some { s.turn i (.holding token r.1 r.2) with recvQueue := rest } := by
    rw [step, hi, hqueue]
    dsimp only
    rw [if_pos hne]
  have hseen : seen zlib s (.get i) = none := by
    rw [seen, hi, hqueue]
    exact if_pos hne
  have hone : Exclusive { s.turn i (.holding token r.1 r.2) with recvQueue := rest } :=
    h.turn (c := .holding token r.1 r.2) (i := i) rfl rfl
  obtain ⟨t, hput, ht, hcallers, hrest⟩ := @exists_put ι _ zlib _ i token hone r
    (callers_turn.mpr (Or.inl ⟨rfl, rfl⟩))
  refine ⟨t, (shows_single hone hstep hseen).trans hput, ht, ?_, hrest⟩
  rw [hcallers]
  exact callers_turn.mpr (Or.inl ⟨rfl, rfl⟩)

omit [Fintype ι] in
/-- A thread that is alone gets to its data: those in front of them it puts back. -/
theorem exists_return (zlib : Zlib) (h : Exclusive s) (hi : s.callers i = .waiting token)
    {before after : List (UInt32 × List UInt8)}
    (hqueue : s.recvQueue = before ++ (token, data) :: after) :
    ∃ data' t, (client zlib).Shows Alone (seen zlib) s [.returned i token data'] t := by
  -- along the data in front; each of another token goes to the end
  induction before generalizing s after with
  | nil =>
    obtain ⟨t, ht⟩ := exists_get zlib h hi hqueue
    exact ⟨data, t, ht⟩
  | cons r before ih =>
    by_cases hne : r.1 = token
    · subst hne
      obtain ⟨t, ht⟩ := exists_get zlib h hi hqueue
      exact ⟨r.2, t, ht⟩
    · obtain ⟨u, hpass, hu, hui, hrest⟩ := exists_pass zlib h hi hqueue hne
      have hrest : u.recvQueue = before ++ (token, data) :: (after ++ [r]) :=
        hrest.trans (List.append_assoc before _ _)
      obtain ⟨data', t, ht⟩ := ih hu hui hrest
      exact ⟨data', t, hpass.trans ht⟩

/-- **A thread whose data have come can return**, wherever they are: the thread that has them
puts them back, and the thread itself goes through the queue. -/
theorem can_return (hs : Quiet s) (h : (client zlib).Shows Alone (seen zlib) s es t)
    (hi : t.waitsFor i = some token) (hr : .received token data ∈ es) :
    ∃ data' u, .received token data' ∈ es
      ∧ (client zlib).Shows Alone (seen zlib) t [.returned i token data'] u := by
  have htokens := shows_tokens hs h
  have hwaits := shows_remembers hs h i token hi
  -- it suffices to come to a state in which the thread gets data
  have hgoal : ∀ u, (client zlib).Shows Alone (seen zlib) t [] u → Exclusive u →
      u.callers i = .waiting token →
      ∃ data' v, .received token data' ∈ es
        ∧ (client zlib).Shows Alone (seen zlib) t [.returned i token data'] v := by
    intro u htu hu hui
    have hend : ∀ v, (client zlib).Shows Alone (seen zlib) u [] v → Exclusive v →
        v.callers i = .waiting token → (token, data) ∈ v.recvQueue →
        ∃ data' v, .received token data' ∈ es
          ∧ (client zlib).Shows Alone (seen zlib) t [.returned i token data'] v := by
      intro v huv hv hvi hmem
      obtain ⟨before, after, hqueue⟩ := List.append_of_mem hmem
      obtain ⟨data', w, hw⟩ := exists_return zlib hv hvi hqueue
      have hall := (htu.trans huv).trans hw
      exact ⟨data', w, returned_received hs (h.trans hall) rfl, hall⟩
    have hkept : (token, data) ∈ u.kept := by
      have hcount := received_kept hs (h.trans htu)
      rw [List.append_nil] at hcount
      have hcomes : (token, data) ∈ (es.filterMap Seen.comes : Multiset (UInt32 × List UInt8)) :=
        List.mem_filterMap.mpr ⟨_, hr, rfl⟩
      rw [hcount] at hcomes
      rcases Multiset.mem_add.mp hcomes with hgone | hkept
      · obtain ⟨f, hf, hgoes⟩ := List.mem_filterMap.mp hgone
        cases f with
        | returned j token' data' =>
          cases hgoes
          obtain ⟨pre, post, rfl⟩ := List.append_of_mem hf
          exact absurd hwaits ((returned_waits hs h rfl).over htokens.nodup)
        | _ => cases hgoes
      · exact hkept
    rcases Multiset.mem_add.mp hkept with hqueue | hheld
    · exact hend u .refl hu hui hqueue
    · obtain ⟨j, -, hj⟩ := Multiset.mem_sum.mp hheld
      cases hc : u.callers j with
      | holding token' tokenTmp data' =>
        rw [hc] at hj
        obtain ⟨rfl, rfl⟩ := Prod.mk.inj (Multiset.mem_singleton.mp hj)
        obtain ⟨v, hput, hv, hcallers, hrest⟩ := @exists_put ι _ zlib _ j token' hu (token, data) hc
        refine hend v hput hv ?_ (by rw [hrest]; exact List.mem_append_right _ List.mem_cons_self)
        rw [hcallers]
        refine callers_turn.mpr (Or.inr ⟨fun hij => ?_, hui⟩)
        rw [← hij, hui] at hc
        cases hc
      | _ =>
        rw [hc] at hj
        cases hj
  rw [waitsFor] at hi
  split at hi
  case h_1 token' hc =>
    cases hi
    exact hgoal t .refl htokens.alone hc
  case h_2 token' tokenTmp data' hc =>
    cases hi
    obtain ⟨u, hput, hu, hcallers, -⟩ :=
      @exists_put ι _ zlib _ i token htokens.alone (tokenTmp, data') hc
    refine hgoal u hput hu ?_
    rw [hcallers]
    exact callers_turn.mpr (Or.inl ⟨rfl, rfl⟩)
  case h_3 => cases hi

/-! ### A run on concrete inputs -/

/-- Two threads, before their first call. -/
def twoThreads : PythonThreads Bool := ⟨0, [], [], fun _ => .outside, true⟩

theorem quiet_twoThreads : Quiet twoThreads := ⟨fun _ => rfl, rfl, rfl⟩

instance (s : PythonThreads ι) : Decidable (Exclusive s) :=
  inferInstanceAs (Decidable (∀ i j, (s.callers i).inGetToken = true →
    (s.callers j).inGetToken = true → i = j))

/-- The test of `Alone`. -/
def aloneTest (zlib : Zlib) (s : PythonThreads ι) (a : Step ι) : Bool :=
  (step zlib s a).all fun t => decide t.Exclusive

theorem alone_of_test (h : aloneTest zlib s a = true) (hstep : (client zlib).step s a = some t) :
    Alone s a t := by
  have hstep : step zlib s a = some t := hstep
  rw [aloneTest, hstep] at h
  have hone : decide t.Exclusive = true := h
  have hexclusive : t.Exclusive := of_decide_eq_true hone
  exact hexclusive

/-- Both threads send a request, the response to the second one comes first, and the first
thread gets it. -/
def bothAsk : List (Step Bool) :=
  [.call false .stats, .storeToken false, .loadToken false, .send false,
    .call true .readLog, .storeToken true, .loadToken true, .send true, .transmit, .transmit,
    .receive ⟨26, [2, 0, 0, 0, 0, 0, 0, 0, 8]⟩, .receive ⟨14, [1, 0, 0, 0, 0, 0, 0, 0, 7]⟩,
    .get false]

/-- What is seen of a run of the two threads, if it passes a test. -/
theorem exists_threads {steps : List (Step Bool)} {p : List (Seen Bool) × PythonThreads Bool → Bool}
    (h : ((client threeZlib).observe (seen threeZlib) (aloneTest threeZlib) twoThreads steps).any p
      = true) :
    ∃ es t, (client threeZlib).Shows Alone (seen threeZlib) twoThreads es t ∧ p (es, t) = true := by
  obtain ⟨⟨es, t⟩, ht, hp⟩ := (Option.any_eq_true _ _).mp h
  have htest : ∀ (s : PythonThreads Bool) (a : Step Bool) (t : PythonThreads Bool),
      aloneTest threeZlib s a = true → (client threeZlib).step s a = some t → Alone s a t :=
    fun _ _ _ h hstep => alone_of_test h hstep
  exact ⟨es, t, .of_observe htest ht, hp⟩

/-- The first thread returns its own data. -/
theorem own_data_once : ∃ pre t,
    (client threeZlib).Shows Alone (seen threeZlib) twoThreads (pre ++ [.returned false 1 [7]]) t
    ∧ .received 1 [7] ∈ pre
    ∧ (∃ before request since, pre = before ++ .sent false 1 request :: since
      ∧ (∀ e ∈ since, e.thread ≠ some false)
      ∧ ∀ j request', .sent j 1 request' ∈ pre ++ [.returned false 1 [7]] →
        j = false ∧ request' = request)
    ∧ ∀ j data', .returned j 1 data' ∉ pre ++ [] := by
  have hrun : ((client threeZlib).observe (seen threeZlib) (aloneTest threeZlib) twoThreads
      (bothAsk ++ [.put false, .get false])).any (fun p => p.1.getLast?.any fun e =>
        decide (e.goes = some (1, [7]) ∧ e.thread = some false)) = true := by
    decide +kernel
  obtain ⟨es, t, h, hp⟩ := exists_threads hrun
  obtain ⟨e, he, hgoes⟩ := (Option.any_eq_true _ _).mp hp
  obtain ⟨hgoes, hthread⟩ : e.goes = some (1, [7]) ∧ e.thread = some false := of_decide_eq_true hgoes
  cases e with
  | returned i token data =>
    cases hgoes
    cases hthread
    obtain ⟨pre, rfl⟩ := List.getLast?_eq_some_iff.mp he
    exact ⟨pre, t, h, own_data quiet_twoThreads h rfl⟩
  | _ => cases hgoes

/-- Its data are in the queue while it has those of the other thread; it can still return
them. -/
theorem can_return_once : ∃ t es data u,
    (client threeZlib).Shows Alone (seen threeZlib) twoThreads es t ∧ .received 1 data ∈ es
      ∧ (client threeZlib).Shows Alone (seen threeZlib) t [.returned false 1 data] u := by
  have hrun : ((client threeZlib).observe (seen threeZlib) (aloneTest threeZlib) twoThreads
      bothAsk).any (fun p => decide (p.2.waitsFor false = some 1)
        && p.1.any fun e => decide (e.comes = some (1, [7]))) = true := by
    decide +kernel
  obtain ⟨es, t, h, hp⟩ := exists_threads hrun
  obtain ⟨hwaits, hcomes⟩ := Bool.and_eq_true_iff.mp hp
  obtain ⟨e, he, hcome⟩ := List.any_eq_true.mp hcomes
  have hcome : e.comes = some (1, [7]) := of_decide_eq_true hcome
  cases e with
  | received token data =>
    cases hcome
    obtain ⟨data, u, hdata, hu⟩ := can_return quiet_twoThreads h (of_decide_eq_true hwaits) he
    exact ⟨t, es, data, u, h, hdata, hu⟩
  | _ => cases hcome

end PythonThreads

end TransDB
