import Acidns.Forward.Basic
import Mathlib.Algebra.Order.Group.Multiset

/-!
# The forwarder at work

`ServeDNS` of `forward/forward.go` as its goroutines interleave. A query that misses the cache joins
the call in flight under its key, or starts one; a goroutine of its own drives the exchange with the
upstream, and every query that waits for the call goes on from its result.

A step is what happens under one lock or between two of them: the look at the cache, the look at the
calls in flight, the end of an exchange, and what a query does once its call is done. Clock readings
and random IDs are part of the step.
-/

namespace Acidns.Forward

open Option (bind_eq_some_iff)

/-- One upstream query, with those that wait for it. -/
structure Call where
  key : CacheKey
  leader : Message
  forwarded : Message
  /-- `resp` and `err`, once the exchange is over. -/
  result : Option (Except String Message)
  done : Bool

structure Reply where
  query : Message
  message : Message

/-- The forwarder between two actions. -/
structure State where
  cache : Cache
  /-- Every call so far; the others refer to them by position. -/
  calls : List Call
  inflight : Table CacheKey Nat
  slots : Nat
  /-- The queries that have missed the cache and not yet looked at the calls in flight. -/
  missed : List Message
  waiting : List (Message × Nat)
  closed : Bool
  /-- What the upstream has answered so far; history only. -/
  exchanges : List Exchange
  /-- What clients have been sent so far; history only. -/
  replies : List Reply

def State.initial : State := ⟨[], [], ∅, 0, [], [], false, [], []⟩

/-- What can happen next. -/
inductive Action where
  | serve (q : Message) (now : Int)
  /-- A query that missed the cache looks at the calls in flight; a new call gets the ID. -/
  | join (i : Nat) (id : UInt16)
  | exchanged (c : Nat) (result : Except String Message)
  | retire (c : Nat)
  /-- A query goes on, because its call is done or its context is. -/
  | resume (i : Nat) (cancelled : Bool) (now : Int)
  | close

namespace State

def reply (s : State) (q m : Message) : State := { s with replies := ⟨q, m⟩ :: s.replies }

def keyOf (q : Message) (qq : Question) : CacheKey := makeKey qq.name qq.typ qq.class_ (edsoDOBit q)

def refusal (cfg : Config) (q : Message) (qq : Question) : Option RCODE :=
  if qq.class_ ≠ RRClass.classIN then some .notImp
  else if !q.flags.recursionDesired && !cfg.allowNoRD then some .refused
  else none

/-- A query is refused, answered from the cache or made to wait. -/
def serve (cfg : Config) (s : State) (q : Message) (now : Int) : State :=
  if s.closed then s.reply q (buildErrorResponse q .servFail)
  else
    match preflightRequest q with
    | .drop => s
    | .reply m => s.reply q m
    | .accept =>
      if q.flags.opcode ≠ Opcode.query then s.reply q (buildErrorResponse q .notImp)
      else
        match q.questions with
        -- a query that is accepted has a question
        | [] => s
        | qq :: _ =>
          match refusal cfg q qq with
          | some code => s.reply q (buildErrorResponse q code)
          | none =>
            match s.cache.get (keyOf q qq) now with
            | (some item, cache) => { s with cache }.reply q (buildFromCache q item.val now)
            | (none, cache) => { s with cache, missed := q :: s.missed }

/-- The query joins the call for its key, or leads one. -/
def join (cfg : Config) (s : State) (i : Nat) (id : UInt16) : Option State := do
  let q ← s.missed[i]?
  let qq ← q.questions.head?
  let key := singleflightKey qq (edsoDOBit q)
  let s := { s with missed := s.missed.eraseIdx i }
  match s.inflight.lookup key with
  | some c => some { s with waiting := (q, c) :: s.waiting }
  | none =>
    if cfg.maxInflight > 0 ∧ cfg.maxInflight ≤ s.slots then some (s.reply q (buildErrorResponse q .servFail))
    else
      let call : Call := ⟨key, q, buildForwardQuery id q, none, false⟩
      some { s with calls := s.calls ++ [call], inflight := s.inflight.insert key s.calls.length,
                    slots := s.slots + 1, waiting := (q, s.calls.length) :: s.waiting }

def exchanged (s : State) (c : Nat) (result : Except String Message) : Option State := do
  let call ← s.calls[c]?
  if call.result.isSome then none
  else
    let exchanges := match result with
      | .ok resp => ⟨call.forwarded, resp⟩ :: s.exchanges
      | .error _ => s.exchanges
    some { s with calls := s.calls.set c { call with result := some result }, exchanges }

def retire (s : State) (c : Nat) : Option State := do
  let call ← s.calls[c]?
  if call.result.isNone ∨ call.done then none
  else
    some { s with calls := s.calls.set c { call with done := true }, inflight := s.inflight.erase call.key,
                  slots := s.slots - 1 }

/-- A waiting query gets its result, or gives up. -/
def resume (cfg : Config) (s : State) (i : Nat) (cancelled : Bool) (now : Int) : Option State := do
  let (q, c) ← s.waiting[i]?
  let qq ← q.questions.head?
  let call ← s.calls[c]?
  let s := { s with waiting := s.waiting.eraseIdx i }
  if cancelled then some (s.reply q (buildErrorResponse q .servFail))
  else if !call.done then none
  else
    match call.result with
    | none => none
    | some (.error _) => some (s.reply q (buildErrorResponse q .servFail))
    | some (.ok resp) =>
      let filtered := filterBailiwick qq.name resp
      let cache := match makeEntry filtered cfg now with
        | some e => s.cache.put cfg.cacheSize ⟨keyOf q qq, e, ⟨call.forwarded, resp⟩⟩
        | none => s.cache
      some ({ s with cache }.reply q (rebuildForClient q filtered))

def step (cfg : Config) (s : State) : Action → Option State
  | .serve q now => some (s.serve cfg q now)
  | .join i id => s.join cfg i id
  | .exchanged c result => s.exchanged c result
  | .retire c => s.retire c
  | .resume i cancelled now => s.resume cfg i cancelled now
  | .close => some { s with closed := true, cache := [] }

end State

/-- The states reached by allowed actions. -/
inductive Run (cfg : Config) (allowed : State → Action → Prop) : State → Prop
  | initial : Run cfg allowed .initial
  | step {s s' : State} (a : Action) : Run cfg allowed s → allowed s a → s.step cfg a = some s' → Run cfg allowed s'

def runActions (cfg : Config) (allowed : State → Action → Prop) [∀ s a, Decidable (allowed s a)] :
    List Action → State → Option State
  | [], s => some s
  | a :: as, s => if allowed s a then (s.step cfg a).bind (runActions cfg allowed as) else none

theorem run_of_runActions {cfg : Config} {allowed : State → Action → Prop} [∀ s a, Decidable (allowed s a)]
    {as : List Action} {s s' : State} (hs : Run cfg allowed s) (h : runActions cfg allowed as s = some s') :
    Run cfg allowed s' := by
  induction as generalizing s with
  | nil =>
    cases h
    exact hs
  | cons a as ih =>
    rw [runActions] at h
    split at h
    · rename_i hallowed
      obtain ⟨s₁, hstep, hrest⟩ := bind_eq_some_iff.mp h
      exact ih (.step a hs hallowed hstep) hrest
    · cases h

/-! ### Runs of the default configuration -/

def rootQuery (cd : Bool) : Message :=
  ⟨1, ((0 : Flags).withRecursionDesired true).withCheckingDisabled cd, [newQuestion .root .ns], [], [], [], none⟩

def uncheckedResponse : Message :=
  ⟨2, (0 : Flags).withResponse true, [newQuestion .root .ns], [newRecord .root (60 * second) (.ns .root)], [], [], none⟩

/-- Two queries miss the cache and wait for one call; both are replied to once it is done. -/
def sharedCall (cd cd' : Bool) : List Action :=
  [.serve (rootQuery cd) 0, .serve (rootQuery cd') 0, .join 0 2, .join 0 3, .exchanged 0 (.ok uncheckedResponse),
    .retire 0, .resume 0 false 0, .resume 0 false 0]

/-- Two queries for one key and one for another miss the cache and look at the calls in flight. -/
def twoKeys : List Action :=
  [.serve (rootQuery false) 0, .serve (rootQuery true) 0,
    .serve { rootQuery false with questions := [newQuestion .root .soa] } 0, .join 2 2, .join 1 3, .join 0 4]

/-- The state after the steps, if they are all possible. -/
def stateBehind (allowed : State → Action → Prop) [∀ s a, Decidable (allowed s a)] (as : List Action) : State :=
  (runActions defaultConfig allowed as .initial).getD .initial

section Behind

variable {allowed : State → Action → Prop} [∀ s a, Decidable (allowed s a)] {as : List Action}
  (h : (runActions defaultConfig allowed as .initial).isSome = true)

include h

theorem runActions_stateBehind : runActions defaultConfig allowed as .initial = some (stateBehind allowed as) := by
  obtain ⟨s, hs⟩ := Option.isSome_iff_exists.mp h
  rw [stateBehind, hs, Option.getD_some]

theorem run_stateBehind : Run defaultConfig allowed (stateBehind allowed as) :=
  run_of_runActions .initial (runActions_stateBehind h)

end Behind

section Runs

variable {cfg : Config} {s s' : State} {a : Action}

/-! ### One reply for each query -/

namespace State

/-- The queries that were replied to, those that missed the cache and those that wait. -/
def queries (s : State) : Multiset Message :=
  (s.replies : Multiset Reply).map Reply.query + s.missed + (s.waiting : Multiset (Message × Nat)).map Prod.fst

/-- The query that comes with a step and is not dropped. -/
def arrival (s : State) : Action → Multiset Message
  | .serve q _ => if s.closed ∨ preflightRequest q ≠ .drop then {q} else 0
  | _ => 0

def arrivals (cfg : Config) : State → List Action → Multiset Message
  | _, [] => 0
  | s, a :: as => s.arrival a + (s.step cfg a).elim 0 fun s' => arrivals cfg s' as

theorem cons_eraseIdx {α : Type} {l : List α} {i : Nat} {x : α} (h : l[i]? = some x) :
    x ::ₘ (l.eraseIdx i : Multiset α) = l := by
  obtain ⟨hi, rfl⟩ := List.getElem?_eq_some_iff.mp h
  exact Multiset.coe_eq_coe.mpr (List.getElem_cons_eraseIdx_perm hi)

theorem queries_step (h : s.step cfg a = some s') : s'.queries = s.arrival a + s.queries := by
  cases a with
  | serve q now =>
    cases h
    have hreply : ∀ m, (s.reply q m).queries = {q} + s.queries := by simp [queries, reply, ← Multiset.cons_coe]
    by_cases harrives : s.closed ∨ preflightRequest q ≠ .drop
    · rw [arrival, if_pos harrives]
      unfold serve
      repeat' split
      all_goals first | exact hreply _ | skip
      · simp_all
      · grind [preflightRequest]
      · simp [queries, ← Multiset.cons_coe]
    · simp_all [serve, arrival]
  | join i id =>
    obtain ⟨q, hq, h⟩ := bind_eq_some_iff.mp h
    obtain ⟨qq, -, h⟩ := bind_eq_some_iff.mp h
    simp only [queries, ← cons_eraseIdx hq, arrival]
    dsimp only at h
    repeat' split at h
    all_goals
      cases h
      simp [reply, ← Multiset.cons_coe]
  | exchanged c result | retire c =>
    obtain ⟨call, -, h⟩ := bind_eq_some_iff.mp h
    split at h <;> cases h
    exact (zero_add _).symm
  | resume i cancelled now =>
    obtain ⟨w, hw, h⟩ := bind_eq_some_iff.mp h
    obtain ⟨qq, -, h⟩ := bind_eq_some_iff.mp h
    obtain ⟨call, -, h⟩ := bind_eq_some_iff.mp h
    simp only [queries, ← cons_eraseIdx hw, arrival]
    repeat' split at h
    all_goals
      cases h
      try simp [reply, ← Multiset.cons_coe]
  | close =>
    cases h
    exact (zero_add _).symm

end State

/-- **No query is lost and none gets two replies**, in whatever order the goroutines go on. -/
theorem serveDNS_replies_once {as : List Action} (h : runActions cfg (fun _ _ => True) as s = some s') :
    s'.queries = s.arrivals cfg as + s.queries := by
  induction as generalizing s with
  | nil =>
    cases h
    exact (zero_add _).symm
  | cons a as ih =>
    rw [runActions, if_pos trivial] at h
    obtain ⟨s₁, hstep, hrest⟩ := bind_eq_some_iff.mp h
    rw [ih hrest, State.queries_step hstep, State.arrivals, hstep, Option.elim_some, add_left_comm, add_assoc]

/-- Two queries that share a call. -/
theorem serveDNS_replies_once_shared :
    let s := stateBehind (fun _ _ => True) (sharedCall false true)
    s.calls.length = 1 ∧ s.replies.length = 2 ∧ s.missed = [] ∧ s.waiting.length = 0 ∧
      s.queries = State.initial.arrivals defaultConfig (sharedCall false true) + State.initial.queries :=
  ⟨by decide +kernel, by decide +kernel, by decide +kernel, by decide +kernel,
    serveDNS_replies_once (runActions_stateBehind (by decide +kernel))⟩

/-! ### One exchange at a time for each key -/

/-- A call that is not done is the one in flight under its key, and it has a slot. -/
structure Coalesced (cfg : Config) (s : State) : Prop where
  inflight : ∀ c call, s.calls[c]? = some call → call.done = false → s.inflight.lookup call.key = some c
  live : ∀ call ∈ s.calls, call.result = none → call.done = false
  slots : s.slots = s.calls.countP (!·.done)
  bound : 0 < cfg.maxInflight → s.slots ≤ cfg.maxInflight

theorem Coalesced.step (hs : Coalesced cfg s) (h : s.step cfg a = some s') : Coalesced cfg s' := by
  have ⟨hinflight, hlive, hslots, hbound⟩ := hs
  cases a with
  | serve q now =>
    cases h
    unfold State.serve
    repeat' split
    all_goals exact { hs with }
  | join i id =>
    obtain ⟨q, -, h⟩ := bind_eq_some_iff.mp h
    obtain ⟨qq, -, h⟩ := bind_eq_some_iff.mp h
    dsimp only at h
    repeat' split at h
    all_goals cases h
    · exact { hs with }
    · exact { hs with }
    · refine ⟨fun c call hc hdone => ?_, by grind, by simp [hslots], by grind⟩
      rw [Table.lookup_insert_eq]
      have hold := hinflight c call
      grind
  | exchanged c result =>
    obtain ⟨call, hc, h⟩ := bind_eq_some_iff.mp h
    split at h <;> cases h
    exact ⟨by grind, by grind, by grind, hbound⟩
  | retire c =>
    obtain ⟨call, hc, h⟩ := bind_eq_some_iff.mp h
    split at h <;> cases h
    refine ⟨fun c' call' hc' hdone => ?_, by grind, by grind, by grind⟩
    -- no other call is in flight under this key
    rw [Table.lookup_erase_eq]
    grind
  | resume i cancelled now =>
    obtain ⟨w, -, h⟩ := bind_eq_some_iff.mp h
    obtain ⟨qq, -, h⟩ := bind_eq_some_iff.mp h
    obtain ⟨call, -, h⟩ := bind_eq_some_iff.mp h
    repeat' split at h
    all_goals cases h
    all_goals exact { hs with }
  | close =>
    cases h
    exact { hs with }

/-- **The upstream is asked once at a time for each key**, and no more often at a time than the bound allows. -/
theorem exchangeSingleflight_once {allowed : State → Action → Prop} (h : Run cfg allowed s) :
    (s.calls.Pairwise fun call call' => call.result = none → call'.result = none → call.key ≠ call'.key) ∧
      (0 < cfg.maxInflight → s.calls.countP (·.result = none) ≤ cfg.maxInflight) := by
  have ⟨hinflight, hlive, hslots, hbound⟩ : Coalesced cfg s := by
    induction h with
    | initial => exact ⟨nofun, nofun, rfl, le_of_lt⟩
    | step a _ _ hstep ih => exact ih.step hstep
  constructor
  · rw [List.pairwise_iff_getElem]
    intro c c' hc hc' hlt hcall hcall' hkey
    have hfirst := hinflight c _ (List.getElem?_eq_getElem hc)
    have hsecond := hinflight c' _ (List.getElem?_eq_getElem hc')
    grind
  · have hcount : s.calls.countP (·.result = none) ≤ s.calls.countP (!·.done) := List.countP_mono_left (by grind)
    omega

/-- Three queries for two keys wait for two calls. -/
theorem exchangeSingleflight_once_joined :
    let s := stateBehind (fun _ _ => True) twoKeys
    s.waiting.length = 3 ∧ s.calls.map Call.result = [none, none] ∧
      (s.calls.Pairwise fun call call' => call.result = none → call'.result = none → call.key ≠ call'.key) ∧
      s.calls.countP (·.result = none) ≤ defaultConfig.maxInflight := by
  have honce := exchangeSingleflight_once (@run_stateBehind (fun _ _ => True) _ twoKeys (by decide +kernel))
  exact ⟨by decide +kernel, by decide +kernel, honce.1, honce.2 (by decide)⟩

end Runs

end Acidns.Forward
