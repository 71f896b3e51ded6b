import Acidns.Lib.Waiting
import Acidns.Recursive.Concurrent
import Acidns.Recursive.Walk

/-!
# What a step does to the calls

The resolver's steps as far as the calls are concerned, said once: a call goes on by itself, or one of its
lookups does, or a client does, and a lookup may start a call or join one. Each of them comes nearer to its
end, by a weight that no response of a server can make up for.
-/

namespace Acidns.Recursive

open Program Resolver

/-! ### Phases -/

/-- The name servers still to be looked up. -/
def Phase.nameServers : Phase → List Name
  | .referred _ todo _ => todo
  | .chasing _ todo _ ns _ => ns :: todo
  | _ => []

/-- The call that a lookup of the phase waits for. -/
def Phase.awaits : Phase → Family → Option (Name × Nat)
  | .chasing _ _ _ ns lookups, family =>
    match lookups family with
    | .waiting k => some (ns, k)
    | _ => none
  | _, _ => none

/-- A lookup that may start a call has a level left for it. -/
def Lookup.Deep (levels : Nat) : Lookup → Prop
  | .missed => 0 < levels
  | .unproven => 0 < levels
  | _ => True

def Phase.Deep (levels : Nat) : Phase → Prop
  | .chasing _ _ _ _ lookups => ∀ family, (lookups family).Deep levels
  | _ => True

/-- The walk for one name may be referred to the other, the name of a server, without an address for it. -/
def Depends (world : World) (key nsKey : Bytes) : Prop :=
  ∃ name ns queryName t resp, nameKey name = key ∧ nameKey ns = nsKey ∧
    (queryName = name ∨ ∃ zone, queryName = minimisedQName zone name) ∧ IsResponse world queryName t resp ∧
    isReferral resp ∧ (splitReferral resp).1 = [] ∧ ns ∈ (splitReferral resp).2

/-- The phase waits for nothing, and its name servers follow from the target. -/
structure Phase.Ready (world : World) (target : Name) (phase : Phase) : Prop where
  nameServers : ∀ ns ∈ phase.nameServers, Depends world (nameKey target) (nameKey ns)
  awaits : ∀ family, phase.awaits family = none
  deep : ∀ levels, phase.Deep levels

/-! ### Weights -/

def weigh (a b c : Nat) : ℕ ×ₗ ℕ ×ₗ ℕ := toLex (a, toLex (b, c))

theorem weigh_lt {a b c a' b' c' : Nat} :
    weigh a b c < weigh a' b' c' ↔ a < a' ∨ a = a' ∧ (b < b' ∨ b = b' ∧ c < c') := by
  simp only [weigh, Prod.Lex.toLex_lt_toLex]

/-- The steps a lookup still takes. -/
def Lookup.rank : Lookup → Nat
  | .start => 4
  | .missed => 3
  | .unproven => 2
  | .waiting _ => 1
  | .done _ => 0

/-- The iterations left, then the name servers left, then what is left to do about one of them. -/
def Phase.weight (maxIterations : Nat) : Phase → ℕ ×ₗ ℕ ×ₗ ℕ
  | .started => weigh (maxIterations + 1) 0 0
  | .walking left _ => weigh left 0 10
  | .referred r todo _ => weigh r.left todo.length 11
  | .chasing r todo _ _ lookups => weigh r.left (todo.length + 1) ((lookups .v4).rank + (lookups .v6).rank)
  | .returned _ => weigh 0 0 3
  | .deleted _ => weigh 0 0 2
  | .released _ => weigh 0 0 1
  | .closed _ => weigh 0 0 0

def ClientPhase.weight (maxCNAMEs : Nat) : ClientPhase → ℕ ×ₗ ℕ ×ₗ ℕ
  | .start => weigh (maxCNAMEs + 1) 0 0
  | .following left _ _ _ lookup => weigh left 0 (lookup.rank + 1)
  | .done _ => weigh 0 0 0

/-! ### What the goroutine of a call comes to -/

section Work

variable {Idx : Type} {cfg : Config Idx} {world : World} {c : Call} {target : Name} {t : RRType} {left n : Nat} {w : Walk}

theorem ready_of_nil {phase : Phase} (hnone : phase.nameServers = []) (hawaits : ∀ family, phase.awaits family = none)
    (hdeep : ∀ levels, phase.Deep levels) : phase.Ready world target :=
  ⟨by rw [hnone]; exact List.forall_mem_nil _, hawaits, hdeep⟩

/-- What a walk has come to: nearer to its end than `bound`. -/
structure Phase.Onward (world : World) (target : Name) (n : Nat) (bound : ℕ ×ₗ ℕ ×ₗ ℕ) (phase : Phase) : Prop where
  ready : phase.Ready world target
  lighter : phase.weight n < bound

theorem stable_true : Stable fun _ : State Idx => True := by
  constructor <;> exact fun _ _ => by simp

variable {bound : ℕ ×ₗ ℕ ×ₗ ℕ} {p : Resolver Idx Phase}

theorem keeps_conclude {p : Resolver Idx (Entry ⊕ Walk)} (hreturned : weigh 0 0 3 < bound)
    (hwalking : weigh left 0 10 < bound) :
    Keeps (fun _ => True) (conclude left p) (Phase.Onward world target n bound) := by
  have hp : Keeps (fun _ => True) p fun _ => True := by
    intro s _
    rcases p s with ⟨_ | _, _⟩ <;> simp
  refine keeps_bind hp fun next _ => ?_
  cases next with
  | inl entry => exact keeps_pure ⟨ready_of_nil rfl (fun _ => rfl) fun _ => trivial, hreturned⟩
  | inr w => exact keeps_pure ⟨ready_of_nil rfl (fun _ => rfl) fun _ => trivial, hwalking⟩

theorem keeps_walkQuery :
    Keeps (fun _ => True) (walkQuery world target t w : Resolver Idx Reply) fun reply =>
      (reply.queryName = target ∨ ∃ zone, reply.queryName = minimisedQName zone target) ∧
        IsResponse world reply.queryName t reply.resp := by
  refine keeps_ite (fun _ => keeps_fail) fun _ => ?_
  refine keeps_bind (keeps_observe stable_true _) fun ranked _ => ?_
  refine keeps_bind (keeps_queryAnyLoop stable_true) fun answer hanswer => keeps_pure ⟨?_, hanswer⟩
  cases w.fellBack with
  | true => exact .inl rfl
  | false => exact .inr ⟨w.closestZone, rfl⟩

theorem keeps_iterate :
    Keeps (fun _ => True) (iterate cfg world target t left w) (Phase.Onward world target n (weigh (left + 1) 0 10)) := by
  have hend : ∀ p : Resolver Idx (Entry ⊕ Walk),
      Keeps (fun _ => True) (conclude left p) (Phase.Onward world target n (weigh (left + 1) 0 10)) :=
    fun p => keeps_conclude (weigh_lt.mpr (.inl (Nat.succ_pos _))) (weigh_lt.mpr (.inl (Nat.lt_succ_self _)))
  refine keeps_bind keeps_walkQuery fun reply hreply => keeps_ite (fun href => ?_) fun _ => hend _
  split
  · rename_i unglued hsplit
    refine keeps_pure ⟨⟨fun ns hns => ?_, fun _ => rfl, fun _ => trivial⟩, weigh_lt.mpr (.inl (Nat.lt_succ_self _))⟩
    refine ⟨target, ns, reply.queryName, t, reply.resp, rfl, rfl, hreply.1, hreply.2, href, ?_, ?_⟩
    · rw [hsplit]
    · rw [hsplit]
      exact hns
  · exact hend _

/-- The work of a call leads on to name servers its target depends on. -/
theorem keeps_work (hc : ∀ ns ∈ c.phase.nameServers, Depends world (nameKey c.target) (nameKey ns))
    (h : c.work cfg world = some p) :
    Keeps (fun _ => True) p (Phase.Onward world c.target cfg.maxIterations (c.phase.weight cfg.maxIterations)) := by
  obtain ⟨target, t, levels, phase⟩ := c
  cases phase with
  | started =>
    cases h
    refine keeps_bind (keeps_observe stable_true _) fun servers _ => keeps_pure ⟨?_, ?_⟩
    · exact ready_of_nil rfl (fun _ => rfl) fun _ => trivial
    · exact weigh_lt.mpr (.inl (Nat.lt_succ_self _))
  | walking left w =>
    cases left with
    | zero =>
      cases h
      exact keeps_fail
    | succ left =>
      cases h
      exact keeps_iterate
  | referred r todo found =>
    cases todo with
    | nil =>
      cases h
      exact keeps_conclude (weigh_lt.mpr (by simp; omega)) (weigh_lt.mpr (by simp))
    | cons ns todo =>
      cases h
      refine keeps_bind keeps_gets fun busy _ => keeps_ite (fun _ => ?_) fun _ => ?_
      · refine keeps_pure ⟨⟨fun ns hns => hc ns (.tail _ hns), fun _ => rfl, fun _ => trivial⟩, ?_⟩
        exact weigh_lt.mpr (.inr ⟨rfl, .inl (Nat.lt_succ_self _)⟩)
      · refine keeps_bind (keeps_modify fun _ h => h) fun _ _ => keeps_pure ⟨⟨hc, fun _ => rfl, fun _ _ => trivial⟩, ?_⟩
        exact weigh_lt.mpr (.inr ⟨rfl, .inr ⟨rfl, by decide⟩⟩)
  | chasing r todo found ns lookups =>
    simp only [Call.work] at h
    split at h
    · cases h
      refine keeps_bind (keeps_modify fun _ h => h) fun _ _ => keeps_pure ⟨⟨?_, fun _ => rfl, fun _ => trivial⟩, ?_⟩
      · exact fun ns hns => hc ns (.tail _ hns)
      · exact weigh_lt.mpr (.inr ⟨rfl, .inl (Nat.lt_succ_self _)⟩)
    · cases h
  | _ => cases h

theorem returned_of_work (h : c.work cfg world = some p) :
    weigh 0 0 3 < c.phase.weight n := by
  obtain ⟨target, t, levels, phase⟩ := c
  cases phase with
  | started => exact weigh_lt.mpr (.inl (Nat.succ_pos _))
  | walking left w => exact weigh_lt.mpr (by omega)
  | referred r todo found => exact weigh_lt.mpr (by omega)
  | chasing r todo found ns lookups => exact weigh_lt.mpr (by omega)
  | _ => cases h

theorem onward_after (h : Keeps (fun _ => True) p (Phase.Onward world target n bound)) (hreturned : weigh 0 0 3 < bound)
    (shared : State Idx) :
    (Phase.after (p shared).1).Onward world target n bound := by
  cases hp : (p shared).1 with
  | error e => exact ⟨ready_of_nil rfl (fun _ => rfl) fun _ => trivial, hreturned⟩
  | ok phase => exact h.value trivial hp

end Work

/-! ### Lookups -/

section Lookups

variable {Idx : Type} {cfg : Config Idx} {world : World} {s s' : System Idx} {levels k : Nat} {name : Name} {t : RRType}
  {l l' : Lookup}

/-- What one step of a lookup can do: move alone, join a call or start one. -/
inductive LookupStep (s : System Idx) (levels : Nat) (name : Name) (t : RRType) (l l' : Lookup) (s' : System Idx) : Prop
  | moved (hcalls : s'.calls = s.calls) (hinflight : s'.inflight = s.inflight) (hl' : ∀ k, l' ≠ .waiting k)
    (hrank : l'.rank < l.rank) (hdeep : l.Deep levels → l'.Deep levels) (hclients : s'.clients = s.clients)
  | joined (k : Nat) (hl : l = .unproven) (hk : s.inflight.lookup (nameKey name, t) = some k) (hl' : l' = .waiting k)
    (hs : s' = s)
  | started (hl : l = .unproven) (hl' : l' = .waiting s.calls.length)
    (hcalls : s'.calls = s.calls ++ [⟨name, t, levels - 1, .started⟩])
    (hinflight : s'.inflight = s.inflight.insert (nameKey name, t) s.calls.length) (hclients : s'.clients = s.clients)

theorem after_cases (next : Lookup) (found : Except ResolveError (Option Entry)) :
    Lookup.after next found = next ∨ ∃ outcome, Lookup.after next found = .done outcome := by
  rcases found with e | (_ | e)
  · exact .inr ⟨_, rfl⟩
  · exact .inl rfl
  · exact .inr ⟨_, rfl⟩

theorem after_step {α : Type} {next : Lookup} {p : Resolver Idx α} {found : Except ResolveError (Option Entry)}
    (hnext : ∀ k, next ≠ .waiting k) (hrank : next.rank < l.rank) (hdeep : l.Deep levels → next.Deep levels) :
    LookupStep s levels name t l (Lookup.after next found) (s.exec p).2 := by
  rcases after_cases next found with heq | ⟨outcome, heq⟩
  · rw [heq]
    exact .moved rfl rfl hnext hrank hdeep rfl
  · rw [heq]
    exact .moved rfl rfl nofun (Nat.zero_lt_of_lt hrank) (fun _ => trivial) rfl

theorem join_step : LookupStep s levels name t .unproven (s.join cfg levels name t).1 (s.join cfg levels name t).2 := by
  rw [System.join]
  cases hlookup : s.inflight.lookup (nameKey name, t) with
  | some k => exact .joined k rfl hlookup rfl rfl
  | none =>
    dsimp only
    split
    · exact .moved rfl rfl nofun (Nat.zero_lt_succ _) (fun _ => trivial) rfl
    · exact .started rfl rfl rfl rfl rfl

theorem moveLookup_step (h : s.moveLookup cfg world levels name t l = some (l', s')) : LookupStep s levels name t l l' s' := by
  cases l with
  | start =>
    rw [System.moveLookup] at h
    split at h
    · cases h
      exact .moved rfl rfl nofun (Nat.zero_lt_succ _) (fun _ => trivial) rfl
    · rename_i hlevels
      cases h
      exact after_step nofun (by decide) fun _ => Nat.pos_of_ne_zero hlevels
  | missed =>
    cases h
    exact after_step nofun (by decide) fun hdeep => hdeep
  | unproven =>
    have heq : s.join cfg levels name t = (l', s') := Option.some.inj h
    have hstep := @join_step _ cfg s levels name t
    rwa [heq] at hstep
  | waiting k =>
    obtain ⟨outcome, -, heq⟩ := Option.map_eq_some_iff.mp h
    cases heq
    exact .moved rfl rfl nofun (Nat.zero_lt_succ _) (fun _ => trivial) rfl
  | done outcome => cases h

section

variable (h : LookupStep s levels name t l l' s')

include h

theorem LookupStep.clients_eq : s'.clients = s.clients := by
  cases h with
  | moved _ _ _ _ _ hclients => exact hclients
  | joined _ _ _ _ hs => rw [hs]
  | started _ _ _ _ hclients => exact hclients

theorem LookupStep.rank_lt : l'.rank < l.rank := by
  cases h with
  | moved _ _ _ hrank => exact hrank
  | joined k hl _ hl' => rw [hl, hl']; exact Nat.lt_succ_self 1
  | started hl hl' => rw [hl, hl']; exact Nat.lt_succ_self 1

theorem LookupStep.deep (hl : l.Deep levels) : l'.Deep levels := by
  cases h with
  | moved _ _ _ _ hdeep => exact hdeep hl
  | joined k _ _ hl' => rw [hl']; trivial
  | started _ hl' => rw [hl']; trivial

end

end Lookups

/-! ### Steps -/

/-- A goroutine goes on by itself: nobody asks anew, and no context is done. -/
def Action.IsMove : Action → Prop
  | .client _ => True
  | .call _ => True
  | .lookup _ _ => True
  | _ => False

section Steps

variable {Idx : Type} {cfg : Config Idx} {world : World} {s s' : System Idx} {k : Nat} {a : Action}

def ClientMoves (cfg : Config Idx) (s s' : System Idx) : Prop :=
  ∃ (i : Nat) (c : Client) (phase : ClientPhase), s.clients[i]? = some c ∧
    phase.weight cfg.maxCNAMEs < c.phase.weight cfg.maxCNAMEs ∧ s'.clients = s.clients.modify i fun c => { c with phase }

/-- What one action can do to calls and clients. -/
inductive Effect (cfg : Config Idx) (world : World) (s : System Idx) (a : Action) (s' : System Idx) : Prop
  | quiet (hcalls : s'.calls = s.calls) (hinflight : s'.inflight = s.inflight) (hclients : a.IsMove → ClientMoves cfg s s')
  | client {s₁ : System Idx} (name : Name) (t : RRType) (l l' : Lookup)
    (hstep : LookupStep s cfg.maxDepth name t l l' s₁) (hcalls : s'.calls = s₁.calls) (hinflight : s'.inflight = s₁.inflight)
    (hclients : ClientMoves cfg s s')
  | worked (k : Nat) (c : Call) (phase : Phase) (s₁ : System Idx) (hc : s.calls[k]? = some c)
    (hopen : ∀ outcome, c.phase ≠ .closed outcome)
    (honward : (∀ ns ∈ c.phase.nameServers, Depends world (nameKey c.target) (nameKey ns)) →
      phase.Onward world c.target cfg.maxIterations (c.phase.weight cfg.maxIterations))
    (hcalls : s₁.calls = s.calls)
    (hinflight : ∀ key j, s₁.inflight.lookup key = some j → s.inflight.lookup key = some j)
    (hclients : s₁.clients = s.clients) (hs : s' = s₁.setPhase k phase)
  | chased (k : Nat) (family : Family) (c : Call) (r : Referral) (todo : List Name) (found : List AddrPort) (ns : Name)
    (lookups : Family → Lookup) (l' : Lookup) (s₁ : System Idx) (hc : s.calls[k]? = some c)
    (hphase : c.phase = .chasing r todo found ns lookups)
    (hstep : LookupStep s c.levels ns family.type (lookups family) l' s₁) (ha : a = .lookup k family ∨ ∀ k, l' ≠ .waiting k)
    (hs : s' = s₁.setPhase k (.chasing r todo found ns (Function.update lookups family l')))

variable {cur : Name} {cnameSeen : List Name} {aggregated : Entry} {left : Nat}

theorem weight_follow_lt {n : Nat} :
    (System.follow cur cnameSeen aggregated left).weight n < weigh left 0 1 := by
  cases left with
  | zero => exact weigh_lt.mpr (.inr ⟨rfl, .inr ⟨rfl, Nat.one_pos⟩⟩)
  | succ left =>
    rw [System.follow]
    split
    · exact weigh_lt.mpr (.inl (Nat.succ_pos _))
    · exact weigh_lt.mpr (.inl (Nat.lt_succ_self _))

theorem weight_nextLeg_lt {t : RRType} {n : Nat} {entry : Entry}
    {phase : ClientPhase} (h : System.nextLeg t left cur cnameSeen aggregated entry = .inr phase) :
    phase.weight n < weigh left 0 1 := by
  grind [System.nextLeg, weight_follow_lt]

theorem moveClient_effect {i : Nat} (h : s.moveClient cfg world i = some s') : Effect cfg world s a s' := by
  obtain ⟨c, hc, h⟩ := Option.bind_eq_some_iff.mp h
  split at h
  · rename_i hphase
    cases h
    refine .quiet rfl rfl fun _ => ⟨i, c, _, hc, ?_, rfl⟩
    rw [hphase]
    split
    · exact weigh_lt.mpr (.inl (Nat.succ_pos _))
    · exact weight_follow_lt.trans (weigh_lt.mpr (.inl (Nat.lt_succ_self _)))
    · exact weigh_lt.mpr (.inl (Nat.succ_pos _))
  · rename_i left cur cnameSeen aggregated lookup hphase
    have hdone : ∀ l : Lookup, ∀ outcome : Except ResolveError Entry,
        (ClientPhase.done outcome).weight cfg.maxCNAMEs <
          (ClientPhase.following left cur cnameSeen aggregated l).weight cfg.maxCNAMEs :=
      fun l outcome => weigh_lt.mpr (by simp; omega)
    split at h
    · cases h
      exact .quiet rfl rfl fun _ => ⟨i, c, _, hc, hphase ▸ hdone _ _, rfl⟩
    · split at h
      · cases h
        exact .quiet rfl rfl fun _ => ⟨i, c, _, hc, hphase ▸ hdone _ _, rfl⟩
      · rename_i hleg
        cases h
        exact .quiet rfl rfl fun _ => ⟨i, c, _, hc, hphase ▸ weight_nextLeg_lt hleg, rfl⟩
    · obtain ⟨next, hnext, h⟩ := Option.bind_eq_some_iff.mp h
      cases h
      have hstep := moveLookup_step hnext
      refine .client _ _ _ _ hstep rfl rfl ⟨i, c, _, hc, ?_, by rw [System.setClient, hstep.clients_eq]⟩
      rw [hphase]
      exact weigh_lt.mpr (.inr ⟨rfl, .inr ⟨rfl, Nat.succ_lt_succ hstep.rank_lt⟩⟩)
  · cases h

theorem moveCall_effect (h : s.moveCall cfg world k = some s') : Effect cfg world s a s' := by
  obtain ⟨c, hc, h⟩ := Option.bind_eq_some_iff.mp h
  split at h
  · rename_i outcome hphase
    refine .worked k c (.deleted outcome) { s with inflight := s.inflight.erase c.key } hc (by rw [hphase]; exact nofun)
      (fun _ => ⟨ready_of_nil rfl (fun _ => rfl) fun _ => trivial, ?_⟩) rfl ?_ rfl (Option.some.inj h).symm
    · rw [hphase]
      exact weigh_lt.mpr (by decide)
    · exact fun key j hlookup => Table.lookup_of_lookup_erase hlookup
  · rename_i outcome hphase
    refine .worked k c (.released outcome)
      { s with shared := { s.shared with inflight := s.shared.inflight.erase c.key } } hc (by rw [hphase]; exact nofun)
      (fun _ => ⟨ready_of_nil rfl (fun _ => rfl) fun _ => trivial, ?_⟩) rfl (fun _ _ hlookup => hlookup) rfl
      (Option.some.inj h).symm
    rw [hphase]
    exact weigh_lt.mpr (by decide)
  · rename_i outcome hphase
    refine .worked k c (.closed outcome) s hc (by rw [hphase]; exact nofun)
      (fun _ => ⟨ready_of_nil rfl (fun _ => rfl) fun _ => trivial, ?_⟩) rfl (fun _ _ hlookup => hlookup) rfl
      (Option.some.inj h).symm
    rw [hphase]
    exact weigh_lt.mpr (by decide)
  · obtain ⟨p, hp, h⟩ := Option.bind_eq_some_iff.mp h
    refine .worked k c (Phase.after (s.exec p).1) (s.exec p).2 hc ?_
      (fun hservers => onward_after (keeps_work hservers hp) (returned_of_work hp) _) rfl (fun _ _ hlookup => hlookup) rfl
      (Option.some.inj h).symm
    intro outcome hphase
    rw [Call.work, hphase] at hp
    cases hp

theorem step_effect (h : s.step cfg world a = some s') : Effect cfg world s a s' := by
  cases a with
  | resolve name t =>
    cases h
    exact .quiet rfl rfl False.elim
  | client i => exact moveClient_effect h
  | cancel i =>
    obtain ⟨c, -, h⟩ := Option.bind_eq_some_iff.mp h
    split at h
    · cases h
      exact .quiet rfl rfl False.elim
    · cases h
  | call k => exact moveCall_effect h
  | lookup k family =>
    obtain ⟨c, hc, h⟩ := Option.bind_eq_some_iff.mp h
    split at h
    · rename_i r todo found ns lookups hphase
      obtain ⟨next, hnext, h⟩ := Option.bind_eq_some_iff.mp h
      exact .chased k family c r todo found ns lookups next.1 next.2 hc hphase (moveLookup_step hnext) (.inl rfl)
        (Option.some.inj h).symm
    · cases h
  | expire k family =>
    obtain ⟨c, hc, h⟩ := Option.bind_eq_some_iff.mp h
    split at h
    · rename_i r todo found ns lookups hphase
      split at h
      · rename_i k' hwaiting
        refine .chased k family c r todo found ns lookups (.done (.error .context)) s hc hphase ?_ (.inr nofun)
          (Option.some.inj h).symm
        exact .moved rfl rfl nofun (by rw [hwaiting]; exact Nat.zero_lt_succ _) (fun _ => trivial) rfl
      · cases h
    · cases h

end Steps

end Acidns.Recursive
