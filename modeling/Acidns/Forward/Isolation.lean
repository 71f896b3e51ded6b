import Acidns.Forward.Serve

/-!
# Clients that disable checking

A query with the CD flag asks the upstream for data that did not validate. The flag is passed on, but
neither the key of a cache entry nor the key of a call in flight has it, so a client can be given what
was fetched for another with the other flag.

Replies are isolated in every run in which no query finds a live entry, or a call in flight, that
stems from a query with the other flag.
-/

namespace Acidns.Forward

open List

abbrev cdOf (q : Message) : Bool := q.flags.checkingDisabled

theorem cdOf_buildForwardQuery (id : UInt16) (q : Message) : cdOf (buildForwardQuery id q) = cdOf q := by
  have hbit : ∀ cd : Bool,
      (((0 : Flags).withRecursionDesired true).withCheckingDisabled cd).checkingDisabled = cd := by decide
  exact hbit (cdOf q)

/-! ### Where a reply comes from -/

/-- The reply says what the forwarder found out by itself. -/
def Reply.Local (r : Reply) : Prop :=
  (∃ code, r.message = buildErrorResponse r.query code) ∨ r.message = formErrReply r.query

def MadeFrom (cfg : Config) (e : Entry) (name : Bytes) (ex : Exchange) : Prop :=
  ∃ qname t, nameKey qname = name ∧ makeEntry (filterBailiwick qname ex.response) cfg t = some e

/-- The reply is made from the exchange, at once or through the cache. -/
def Reply.BuiltFrom (cfg : Config) (r : Reply) (ex : Exchange) : Prop :=
  ∃ qq, r.query.questions.head? = some qq ∧
    (r.message = rebuildForClient r.query (filterBailiwick qq.name ex.response) ∨
      ∃ e now, MadeFrom cfg e (nameKey qq.name) ex ∧ r.message = buildFromCache r.query e now)

/-- The reply has no data of the upstream, or data that the upstream gave for the client's CD flag. -/
def Reply.Isolated (cfg : Config) (exchanges : List Exchange) (r : Reply) : Prop :=
  r.Local ∨ ∃ ex ∈ exchanges, cdOf ex.query = cdOf r.query ∧ r.BuiltFrom cfg ex

theorem Reply.Isolated.mono {cfg : Config} {exchanges exchanges' : List Exchange} {r : Reply}
    (h : r.Isolated cfg exchanges) (hsub : ∀ ex ∈ exchanges, ex ∈ exchanges') : r.Isolated cfg exchanges' := by
  grind [Isolated]

/-! ### The condition on a step -/

/-- The query finds no live entry or call in flight that stems from a query with the other CD flag. -/
def Separate (s : State) : Action → Prop
  | .serve q now => ∀ qq ∈ q.questions.head?, ∀ item ∈ s.cache, item.key = State.keyOf q qq →
      now < item.val.expiresAt → cdOf item.origin.query = cdOf q
  | .join i _ => ∀ q ∈ s.missed[i]?, ∀ qq ∈ q.questions.head?,
      ∀ c ∈ s.inflight.lookup (singleflightKey qq (edsoDOBit q)), ∀ call ∈ s.calls[c]?, cdOf call.leader = cdOf q
  | _ => True

instance (s : State) (a : Action) : Decidable (Separate s a) :=
  match a with
  | .serve q now => inferInstanceAs (Decidable (∀ qq ∈ q.questions.head?, ∀ item ∈ s.cache,
      item.key = State.keyOf q qq → now < item.val.expiresAt → cdOf item.origin.query = cdOf q))
  | .join i _ => inferInstanceAs (Decidable (∀ q ∈ s.missed[i]?, ∀ qq ∈ q.questions.head?,
      ∀ c ∈ s.inflight.lookup (singleflightKey qq (edsoDOBit q)), ∀ call ∈ s.calls[c]?, cdOf call.leader = cdOf q))
  | .exchanged _ _ | .retire _ | .resume _ _ _ | .close => isTrue trivial

/-! ### What every run keeps -/

/-- The calls so far, as the queries that wait for them and the cache see them. -/
structure CallsSound (calls : List Call) (exchanges : List Exchange) : Prop where
  forwarded : ∀ call ∈ calls, cdOf call.forwarded = cdOf call.leader
  answered : ∀ call ∈ calls, ∀ resp, call.result = some (.ok resp) → ⟨call.forwarded, resp⟩ ∈ exchanges

/-- The invariant of a run: entries, calls and replies come from exchanges. -/
structure Sound (cfg : Config) (s : State) : Prop where
  cache : ∀ item ∈ s.cache, item.origin ∈ s.exchanges ∧ MadeFrom cfg item.val item.key.name item.origin
  calls : CallsSound s.calls s.exchanges
  inflight : ∀ k c, s.inflight.lookup k = some c → c < s.calls.length
  waiting : ∀ w ∈ s.waiting, ∃ call, s.calls[w.2]? = some call ∧ cdOf call.leader = cdOf w.1
  replies : ∀ r ∈ s.replies, r.Isolated cfg s.exchanges

section Steps

variable {cfg : Config} {s s' : State}

variable {q : Message} {now : Int} {calls : List Call} {c : Nat} {call call' : Call}

theorem Sound.reply (h : Sound cfg s) {m : Message} (hr : (⟨q, m⟩ : Reply).Isolated cfg s.exchanges) :
    Sound cfg (s.reply q m) :=
  { h with replies := forall_mem_cons.mpr ⟨hr, h.replies⟩ }

theorem Sound.replyError (h : Sound cfg s) (q : Message) (code : RCODE) :
    Sound cfg (s.reply q (buildErrorResponse q code)) :=
  h.reply (.inl (.inl ⟨code, rfl⟩))

theorem Sound.serve (h : Sound cfg s) (hsep : Separate s (.serve q now)) :
    Sound cfg (s.serve cfg q now) := by
  unfold State.serve
  split
  · exact h.replyError q _
  split
  · exact h
  · rename_i m hpre
    refine h.reply (.inl (.inr ?_))
    unfold preflightRequest at hpre
    split at hpre
    · cases hpre
    · dsimp only at hpre
      split at hpre
      · exact (Preflight.reply.inj hpre).symm
      · cases hpre
  · split
    · exact h.replyError q _
    split
    · exact h
    · rename_i qq rest hquestions
      have hhead : q.questions.head? = some qq := by rw [hquestions]; rfl
      split
      · exact h.replyError q _
      · have hcache : ∀ item ∈ (s.cache.get (State.keyOf q qq) now).2, item.origin ∈ s.exchanges ∧
            MadeFrom cfg item.val item.key.name item.origin :=
          fun item hitem => h.cache item (Cache.mem_of_mem_get hitem)
        split
        · rename_i item cache hget
          rw [hget] at hcache
          obtain ⟨hmem, hkey, hlive⟩ := Cache.get_eq_some (congrArg Prod.fst hget)
          obtain ⟨horigin, hmade⟩ := h.cache item hmem
          have hsound : Sound cfg { s with cache } := { h with cache := hcache }
          rw [hkey] at hmade
          exact hsound.reply (.inr ⟨item.origin, horigin, hsep qq hhead item hmem hkey hlive, qq, hhead,
            .inr ⟨item.val, now, hmade, rfl⟩⟩)
        · rename_i cache hget
          rw [hget] at hcache
          exact { h with cache := hcache }

/-- A query that joins is served by a call for its own question. -/
theorem Sound.join (h : Sound cfg s) {i : Nat} {id : UInt16} (hsep : Separate s (.join i id))
    (hstep : s.join cfg i id = some s') : Sound cfg s' := by
  obtain ⟨q, hq, hstep⟩ := Option.bind_eq_some_iff.mp hstep
  obtain ⟨qq, hqq, hstep⟩ := Option.bind_eq_some_iff.mp hstep
  dsimp only at hstep
  split at hstep
  · rename_i c hlookup
    cases hstep
    have hlt := h.inflight _ c hlookup
    refine { h with waiting := forall_mem_cons.mpr ⟨⟨s.calls[c], List.getElem?_eq_getElem hlt, ?_⟩, h.waiting⟩ }
    exact hsep q hq qq hqq c hlookup _ (List.getElem?_eq_getElem hlt)
  · split at hstep
    · cases hstep
      exact Sound.replyError (s := { s with missed := s.missed.eraseIdx i }) { h with } q _
    · cases hstep
      -- a new call forwards the query that starts it
      refine ⟨h.cache, ⟨?_, ?_⟩, ?_, ?_, h.replies⟩
      · rintro call hcall
        rcases mem_append.mp hcall with hcall | hcall
        · exact h.calls.forwarded call hcall
        · obtain rfl := mem_singleton.mp hcall
          exact cdOf_buildForwardQuery id q
      · rintro call hcall resp hresp
        rcases mem_append.mp hcall with hcall | hcall
        · exact h.calls.answered call hcall resp hresp
        · obtain rfl := mem_singleton.mp hcall
          cases hresp
      · intro k c hlookup
        rw [Table.lookup_insert_eq] at hlookup
        rw [length_append, length_singleton]
        split at hlookup
        · cases hlookup
          omega
        · have := h.inflight k c hlookup
          omega
      · intro w hw
        rcases mem_cons.mp hw with rfl | hw
        · exact ⟨_, List.getElem?_concat_length, rfl⟩
        · obtain ⟨call, hcall, hcd⟩ := h.waiting w hw
          refine ⟨call, ?_, hcd⟩
          rw [List.getElem?_append_left (List.getElem?_eq_some_iff.mp hcall).1]
          exact hcall

theorem waiting_set (hcall : calls[c]? = some call)
    (hleader : call'.leader = call.leader) {w : Nat}
    (h : ∃ call, calls[w]? = some call ∧ cdOf call.leader = cdOf q) :
    ∃ call, (calls.set c call')[w]? = some call ∧ cdOf call.leader = cdOf q := by
  grind

theorem CallsSound.set {exchanges exchanges' : List Exchange}
    (h : CallsSound calls exchanges) (hcall : calls[c]? = some call) (hleader : call'.leader = call.leader)
    (hforwarded : call'.forwarded = call.forwarded) (hsub : ∀ ex ∈ exchanges, ex ∈ exchanges')
    (hresult : ∀ resp, call'.result = some (.ok resp) → ⟨call'.forwarded, resp⟩ ∈ exchanges') :
    CallsSound (calls.set c call') exchanges' := by
  constructor
  · intro call₀ hmem
    rcases mem_or_eq_of_mem_set hmem with hmem | rfl
    · exact h.forwarded call₀ hmem
    · rw [hforwarded, hleader]
      exact h.forwarded call (mem_of_getElem? hcall)
  · intro call₀ hmem resp hresp
    rcases mem_or_eq_of_mem_set hmem with hmem | rfl
    · exact hsub _ (h.answered call₀ hmem resp hresp)
    · exact hresult resp hresp

theorem Sound.exchanged (h : Sound cfg s) {result : Except String Message}
    (hstep : s.exchanged c result = some s') : Sound cfg s' := by
  obtain ⟨call, hcall, hstep⟩ := Option.bind_eq_some_iff.mp hstep
  split at hstep
  · cases hstep
  · have hsub : ∀ ex ∈ s.exchanges, ex ∈ s'.exchanges := by
      intro ex hex
      rw [← Option.some.inj hstep]
      cases result with
      | ok resp => exact .tail _ hex
      | error _ => exact hex
    cases hstep
    refine ⟨?_, h.calls.set hcall rfl rfl hsub ?_, ?_, ?_, ?_⟩
    · intro item hitem
      obtain ⟨horigin, hmade⟩ := h.cache item hitem
      exact ⟨hsub _ horigin, hmade⟩
    · intro resp hresp
      cases hresp
      exact .head _
    · intro k c' hlookup
      rw [length_set]
      exact h.inflight k c' hlookup
    · intro w hw
      apply waiting_set hcall _ (h.waiting w hw)
      rfl
    · intro r hr
      exact (h.replies r hr).mono hsub

theorem Sound.retire (h : Sound cfg s) (hstep : s.retire c = some s') : Sound cfg s' := by
  obtain ⟨call, hcall, hstep⟩ := Option.bind_eq_some_iff.mp hstep
  have hmem := mem_of_getElem? hcall
  split at hstep
  · cases hstep
  · cases hstep
    refine ⟨h.cache, h.calls.set hcall rfl rfl (fun _ hex => hex) ?_, ?_, ?_, h.replies⟩
    · intro resp hresp
      exact h.calls.answered call hmem resp hresp
    · intro k c' hlookup
      rw [length_set]
      exact h.inflight k c' (Table.lookup_of_lookup_erase hlookup)
    · intro w hw
      apply waiting_set hcall _ (h.waiting w hw)
      rfl

/-- A reply is built from the exchange that was waited for. -/
theorem Sound.resume (h : Sound cfg s) {i : Nat} {cancelled : Bool}
    (hstep : s.resume cfg i cancelled now = some s') : Sound cfg s' := by
  obtain ⟨⟨q, c⟩, hw, hstep⟩ := Option.bind_eq_some_iff.mp hstep
  obtain ⟨qq, hqq, hstep⟩ := Option.bind_eq_some_iff.mp hstep
  obtain ⟨call, hcall, hstep⟩ := Option.bind_eq_some_iff.mp hstep
  have hwaiting : ∀ w ∈ s.waiting.eraseIdx i, ∃ call, s.calls[w.2]? = some call ∧ cdOf call.leader = cdOf w.1 :=
    fun w hmem => h.waiting w (mem_of_mem_eraseIdx hmem)
  have hsound : Sound cfg { s with waiting := s.waiting.eraseIdx i } := { h with waiting := hwaiting }
  split at hstep
  · cases hstep
    exact hsound.replyError q _
  split at hstep
  · cases hstep
  split at hstep
  · cases hstep
  · cases hstep
    exact hsound.replyError q _
  · rename_i resp hresult
    cases hstep
    have hmem := mem_of_getElem? hcall
    have hanswered := h.calls.answered call hmem resp hresult
    -- the call was started by a query with the same flag
    have hcd : cdOf call.forwarded = cdOf q := by
      obtain ⟨call', hcall', hcd⟩ := h.waiting (q, c) (mem_of_getElem? hw)
      cases hcall.symm.trans hcall'
      exact (h.calls.forwarded call hmem).trans hcd
    apply Sound.reply
    · refine { hsound with cache := ?_ }
      intro item hitem
      split at hitem
      · rename_i e hentry
        rcases Cache.mem_of_mem_put hitem with hitem | rfl
        · exact h.cache item hitem
        · exact ⟨hanswered, qq.name, now, rfl, hentry⟩
      · exact h.cache item hitem
    · exact .inr ⟨⟨call.forwarded, resp⟩, hanswered, hcd, qq, hqq, .inl rfl⟩

end Steps

/-- **Isolation.** If no query finds a live entry or a call in flight of the other CD flag, every reply has only data
that the upstream gave for the flag of its client. -/
theorem replies_isolated (cfg : Config) {s : State} (h : Run cfg Separate s) :
    ∀ r ∈ s.replies, r.Isolated cfg s.exchanges := by
  suffices hsound : Sound cfg s from hsound.replies
  induction h with
  | initial =>
    refine ⟨?_, ⟨?_, ?_⟩, ?_, ?_, ?_⟩
    all_goals simp [State.initial]
  | step a _ hsep hstep ih =>
    cases a with
    | serve q now => exact Option.some.inj hstep ▸ ih.serve hsep
    | join i id => exact ih.join hsep hstep
    | exchanged c result => exact ih.exchanged hstep
    | retire c => exact ih.retire hstep
    | resume i cancelled now => exact ih.resume hstep
    | close =>
      cases hstep
      exact { ih with cache := fun item hitem => by cases hitem }

/-- Two clients of one flag share a call, and a third is served from the cache. -/
theorem replies_isolated_shared : let run := sharedCall false false ++ [.serve (rootQuery false) 0]
    (stateBehind Separate run).replies.length = 3 ∧ (stateBehind Separate run).exchanges.length = 1 ∧
      ∀ r ∈ (stateBehind Separate run).replies, r.Isolated defaultConfig (stateBehind Separate run).exchanges :=
  ⟨by decide +kernel, by decide +kernel, replies_isolated defaultConfig (run_stateBehind (by decide +kernel))⟩

/-! ### Two clients -/

def forwardedOnce (cd : Bool) : List Action :=
  [.serve (rootQuery cd) 0, .join 0 2, .exchanged 0 (.ok uncheckedResponse), .retire 0, .resume 0 false 0]

/-- **Data that did not validate reaches a client that checks.** It is served from the cache what the client with the CD
flag was given. -/
theorem replies_not_isolated : ∃ s, Run defaultConfig (fun _ _ => True) s ∧
    ∃ r ∈ s.replies, cdOf r.query = false ∧ ¬r.Isolated defaultConfig s.exchanges := by
  have hrun := @run_stateBehind (fun _ _ => True) _ (forwardedOnce true ++ [.serve (rootQuery false) 0])
    (by decide +kernel)
  generalize hs : stateBehind (fun _ _ => True) (forwardedOnce true ++ [.serve (rootQuery false) 0]) = s at hrun
  have hreplies : s.replies.head?.map (fun r => (cdOf r.query, r.message.answers.length)) = some (false, 1) := by
    rw [← hs]
    decide +kernel
  have hexchanges : ∀ ex ∈ s.exchanges, cdOf ex.query = true := by
    rw [← hs]
    decide +kernel
  obtain ⟨r, hhead, hr⟩ := Option.map_eq_some_iff.mp hreplies
  obtain ⟨hcd, hanswers⟩ := Prod.mk.inj hr
  refine ⟨s, hrun, r, mem_of_head? hhead, hcd, ?_⟩
  rintro ((⟨code, hmessage⟩ | hmessage) | ⟨ex, hex, hsame, -⟩)
  · rw [hmessage] at hanswers
    cases hanswers
  · rw [hmessage] at hanswers
    cases hanswers
  · rw [hexchanges ex hex, hcd] at hsame
    cases hsame

end Acidns.Forward
