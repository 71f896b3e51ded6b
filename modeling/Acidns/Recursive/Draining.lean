import Acidns.Recursive.WaitFor

/-!
# Every call comes to its end

As long as nobody asks anew, the goroutines of a resolver run out of moves: a lookup that starts a call does so
one level further down, and a walk has finitely many iterations with finitely many name servers each. Where
waiting has no circle they stop only when every call is closed, without any context being done.
-/

namespace Acidns.Recursive

open Resolver Waiting Relation List

section Drain

variable {Idx : Type} {cfg : Config Idx} {world : World} {s s' : System Idx} {a : Action}

abbrev Weight : Type := ℕ ×ₗ ℕ ×ₗ ℕ ×ₗ ℕ

def Call.weight (cfg : Config Idx) (c : Call) : Weight := toLex (c.levels, c.phase.weight cfg.maxIterations)

def Client.weight (cfg : Config Idx) (c : Client) : Weight :=
  toLex (cfg.maxDepth + 1, c.phase.weight cfg.maxCNAMEs)

def System.callWeights (cfg : Config Idx) (s : System Idx) : List Weight := s.calls.map (Call.weight cfg)

def System.clientWeights (cfg : Config Idx) (s : System Idx) : List Weight := s.clients.map (Client.weight cfg)

/-- The weights of everything in progress. -/
def System.heads (cfg : Config Idx) (s : System Idx) : Multiset Weight :=
  (s.callWeights cfg : Multiset Weight) + (s.clientWeights cfg : Multiset Weight)

/-- One step of somebody already in progress. -/
def Moves (cfg : Config Idx) (world : World) (s' s : System Idx) : Prop := ∃ a, Action.IsMove a ∧ s.step cfg world a = some s'

section Heads

variable {i k : Nat} {x : Weight}

theorem cutExpand_calls (y : Weight) (started : List Weight) (hx : (s.callWeights cfg)[k]? = some x) (hy : y < x) (hstarted : ∀ z ∈ started, z < x)
    (hcalls : s'.callWeights cfg = (s.callWeights cfg).set k y ++ started)
    (hclients : s'.clientWeights cfg = s.clientWeights cfg) : CutExpand (· < ·) (s'.heads cfg) (s.heads cfg) := by
  rw [System.heads, System.heads, hcalls, hclients, add_comm, add_comm (s.callWeights cfg : Multiset Weight),
    cutExpand_add_left]
  exact cutExpand_set hx hy hstarted

theorem cutExpand_clients (y : Weight) (started : List Weight) (hx : (s.clientWeights cfg)[i]? = some x) (hy : y < x) (hstarted : ∀ z ∈ started, z < x)
    (hcalls : s'.callWeights cfg = s.callWeights cfg ++ started)
    (hclients : s'.clientWeights cfg = (s.clientWeights cfg).set i y) :
    CutExpand (· < ·) (s'.heads cfg) (s.heads cfg) := by
  have hheads : s'.heads cfg =
      (s.callWeights cfg : Multiset Weight) + (((s.clientWeights cfg).set i y ++ started : List Weight) : Multiset Weight) := by
    rw [System.heads, hcalls, hclients, ← Multiset.coe_add, ← Multiset.coe_add]
    abel
  rw [hheads, System.heads, cutExpand_add_left]
  exact cutExpand_set hx hy hstarted

theorem cutExpand_of_client (started : List Weight) (hclients : ClientMoves cfg s s') (hcalls : s'.callWeights cfg = s.callWeights cfg ++ started)
    (hstarted : ∀ z ∈ started, (ofLex z).1 ≤ cfg.maxDepth) : CutExpand (· < ·) (s'.heads cfg) (s.heads cfg) := by
  obtain ⟨i, c, phase, hc, hlighter, hclients⟩ := hclients
  have hx : (s.clientWeights cfg)[i]? = some (c.weight cfg) := by
    rw [System.clientWeights, List.getElem?_map, hc]
    rfl
  refine cutExpand_clients (Client.weight cfg { c with phase }) started hx (Prod.Lex.toLex_lt_toLex.mpr (.inr ⟨rfl, hlighter⟩)) ?_ hcalls ?_
  · intro z hz
    exact Prod.Lex.lt_iff.mpr (.inl (Nat.lt_succ_of_le (hstarted z hz)))
  · rw [System.clientWeights, hclients, map_modify hc]
    rfl

theorem cutExpand_of_call {s₁ : System Idx} {c : Call} {phase : Phase} (hc : s.calls[k]? = some c)
    (hlighter : phase.weight cfg.maxIterations < c.phase.weight cfg.maxIterations) {new : List Call}
    (hcalls : s₁.calls = s.calls ++ new) (hnew : ∀ c' ∈ new, c'.levels < c.levels) (hclients : s₁.clients = s.clients) :
    CutExpand (· < ·) ((s₁.setPhase k phase).heads cfg) (s.heads cfg) := by
  have hx : (s.callWeights cfg)[k]? = some (c.weight cfg) := by
    rw [System.callWeights, List.getElem?_map, hc]
    rfl
  have hk := (List.getElem?_eq_some_iff.mp hx).1
  refine cutExpand_calls (Call.weight cfg { c with phase }) (new.map (Call.weight cfg)) hx
    (Prod.Lex.toLex_lt_toLex.mpr (.inr ⟨rfl, hlighter⟩)) ?_ ?_ ?_
  · intro z hz
    obtain ⟨c', hc', rfl⟩ := mem_map.mp hz
    exact Prod.Lex.toLex_lt_toLex.mpr (.inl (hnew c' hc'))
  · grind [System.callWeights, System.setPhase, map_modify]
  · rw [System.clientWeights, System.clientWeights, System.setPhase, hclients]

end Heads

theorem weight_update_lt {r : Referral} {todo : List Name} {found : List AddrPort} {ns : Name} {lookups : Family → Lookup}
    {family : Family} {l' : Lookup} {n : Nat} (h : l'.rank < (lookups family).rank) :
    (Phase.chasing r todo found ns (Function.update lookups family l')).weight n <
      (Phase.chasing r todo found ns lookups).weight n := by
  refine weigh_lt.mpr (.inr ⟨rfl, .inr ⟨rfl, ?_⟩⟩)
  cases family with
  | v4 =>
    exact Nat.add_lt_add_right h _
  | v6 =>
    exact Nat.add_lt_add_left h _

/-- A move replaces one weight by smaller ones. -/
theorem cutExpand_of_move (hs : s.Sound world) (ha : a.IsMove) (hstep : s.step cfg world a = some s') :
    CutExpand (· < ·) (s'.heads cfg) (s.heads cfg) := by
  cases step_effect hstep with
  | quiet hcalls _ hclients =>
    exact cutExpand_of_client [] (hclients ha) (by rw [System.callWeights, hcalls, append_nil]; rfl)
      (forall_mem_nil _)
  | client name t l l' hlookup hcalls _ hclients =>
    cases hlookup with
    | moved hsame => simp [cutExpand_of_client, System.callWeights, *]
    | joined _ _ _ _ hsame => simp [cutExpand_of_client, System.callWeights, *]
    | started _ _ hnew => simp [cutExpand_of_client, Call.weight, System.callWeights, *]
  | worked k c phase s₁ hc _ honward hcalls _ hclients heq =>
    subst heq
    exact cutExpand_of_call hc (honward (hs.calls k c hc).nameServers).lighter
      (hcalls.trans (append_nil _).symm) (forall_mem_nil _) hclients
  | chased k family c r todo found ns lookups l' s₁ hc hphase hlookup _ heq =>
    subst heq
    have hlighter : (Phase.chasing r todo found ns (Function.update lookups family l')).weight cfg.maxIterations <
        c.phase.weight cfg.maxIterations := hphase ▸ weight_update_lt hlookup.rank_lt
    have hclients := hlookup.clients_eq
    cases hlookup with
    | moved hsame =>
      exact cutExpand_of_call hc hlighter (hsame.trans (append_nil _).symm) (forall_mem_nil _) hclients
    | joined _ _ _ _ hsame =>
      exact cutExpand_of_call hc hlighter (hsame ▸ (append_nil _).symm) (forall_mem_nil _) hclients
    | started hl _ hnew =>
      -- the lookup has passed the check of the depth, so there is a level left to go down
      have hdeep := (hs.calls k c hc).deep
      rw [hphase] at hdeep
      have hpos : (lookups family).Deep c.levels := hdeep family
      rw [hl] at hpos
      exact cutExpand_of_call hc hlighter hnew (forall_mem_singleton.mpr (Nat.sub_lt hpos Nat.one_pos)) hclients

theorem acc_moves (hs : s.Sound world) : Acc (Moves cfg world) s := by
  have hwf : WellFounded (CutExpand (· < ·) : Multiset Weight → Multiset Weight → Prop) := wellFounded_lt.cutExpand
  induction hheads : s.heads cfg using hwf.induction generalizing s with
  | _ heads ih =>
    refine ⟨s, fun s' hmove => ?_⟩
    obtain ⟨a, ha, hstep⟩ := hmove
    exact ih _ (hheads ▸ cutExpand_of_move hs ha hstep) (hs.step hstep) rfl

/-! ### Two zones that serve each other -/

/-- The action makes a lookup wait for a call already there. -/
def System.joins (s : System Idx) : Action → Bool
  | .lookup k family =>
    match s.calls[k]? with
    | some ⟨_, _, _, .chasing _ _ _ ns lookups⟩ =>
      match lookups family with
      | .unproven => (s.inflight.lookup (nameKey ns, family.type)).isSome
      | _ => false
    | _ => false
  | _ => false

theorem safe_of_not_joins (h : s.joins a = false) : s.Safe world a := by
  rintro k family ⟨target, t, levels, phase⟩ r todo found ns lookups rfl hc rfl hl hsome
  simp only [System.joins, hc, hl] at h
  rw [h] at hsome
  exact absurd hsome Bool.false_ne_true

def System.runActions (cfg : Config Idx) (world : World) (allowed : System Idx → Action → Bool) :
    List Action → System Idx → Option (System Idx)
  | [], s => some s
  | a :: as, s => if allowed s a then (s.step cfg world a).bind (runActions cfg world allowed as) else none

theorem run_of_runActions {allowed : System Idx → Action → Bool} {allowed' : System Idx → Action → Prop} {as : List Action}
    (hallowed : ∀ s a, allowed s a = true → allowed' s a) (hs : Run cfg world allowed' s)
    (h : s.runActions cfg world allowed as = some s') : Run cfg world allowed' s' := by
  induction as generalizing s with
  | nil =>
    cases h
    exact hs
  | cons a as ih =>
    rw [System.runActions] at h
    split at h
    · rename_i ha
      obtain ⟨s₁, hstep, hrest⟩ := Option.bind_eq_some_iff.mp h
      exact ih (.step a hs (hallowed s a ha) hstep) hrest
    · cases h

/-- No goroutine can move. -/
def System.stuck (cfg : Config Idx) (world : World) (s : System Idx) : Bool :=
  (List.range s.clients.length).all (fun i => (s.step cfg world (.client i)).isNone) &&
    (List.range s.calls.length).all fun k => (s.step cfg world (.call k)).isNone &&
      (s.step cfg world (.lookup k .v4)).isNone && (s.step cfg world (.lookup k .v6)).isNone

theorem range_of_move (ha : a.IsMove) (h : s.step cfg world a = some s') : (∃ i < s.clients.length, a = .client i) ∨
    ∃ k < s.calls.length, a = .call k ∨ a = .lookup k .v4 ∨ a = .lookup k .v6 := by
  cases a with
  | client i =>
    obtain ⟨c, hc, -⟩ := Option.bind_eq_some_iff.mp h
    exact .inl ⟨i, (List.getElem?_eq_some_iff.mp hc).1, rfl⟩
  | call k =>
    obtain ⟨c, hc, -⟩ := Option.bind_eq_some_iff.mp h
    exact .inr ⟨k, (List.getElem?_eq_some_iff.mp hc).1, .inl rfl⟩
  | lookup k family =>
    obtain ⟨c, hc, -⟩ := Option.bind_eq_some_iff.mp h
    refine .inr ⟨k, (List.getElem?_eq_some_iff.mp hc).1, .inr ?_⟩
    cases family <;> simp
  | _ => cases ha

theorem not_moves_of_stuck (h : s.stuck cfg world = true) : ¬Moves cfg world s' s := by
  rintro ⟨a, ha, hstep⟩
  simp only [System.stuck, Bool.and_eq_true, List.all_eq_true, List.mem_range, Option.isNone_iff_eq_none] at h
  rcases range_of_move ha hstep with ⟨i, hi, rfl⟩ | ⟨k, hk, rfl | rfl | rfl⟩
  · rw [h.1 i hi] at hstep
    cases hstep
  all_goals grind

end Drain

namespace MutualSample

def zoneA : Name := Name.Short.a
def zoneB : Name := Name.Short.b
def nsInA : Name := Name.Short.xa
def nsInB : Name := ⟨[1, 0x79, 1, 0x62, 0], .inr (by decide)⟩
def hostInA : Name := ⟨[1, 0x77, 1, 0x61, 0], .inr (by decide)⟩

def referral (zone ns : Name) : Message := ⟨0, 0x8000, [], [], [newRecord zone (60 * second) (.ns ns)], [], none⟩

/-- Every server refers what is below `a.` to `y.b.` and what is below `b.` to `x.a.`, without addresses. -/
def world : World where
  clock _ := 0
  roots _ := [⟨[127, 0, 0, 1], 53⟩]
  rank _ servers := servers
  take _ _ := true
  randomID _ := .ok 0
  exchange _ _ q :=
    if q.questions.any fun qq => decide (zoneA.Encloses qq.name) then .ok (referral zoneA nsInB)
    else if q.questions.any fun qq => decide (zoneB.Encloses qq.name) then .ok (referral zoneB nsInA)
    else .error ""
  expired _ := false

def cfg : Config Unit := .new ⟨fun _ _ _ _ => none, fun _ _ _ _ => none, fun idx _ _ => idx⟩ none oneShard

def ask (name : Name) : List Action := [.resolve name .a, .client 0, .client 0, .client 0, .client 0]

def chase (k : Nat) : List Action := [.call k, .call k, .call k, .lookup k .v4, .lookup k .v4, .lookup k .v4]

def awaited (s : System Unit) : List (Option (Name × Nat)) := s.calls.map fun c => c.phase.awaits .v4

theorem circle : ((System.initial ()).runActions cfg world (fun _ _ => true) (ask nsInA ++ chase 0 ++ chase 1)).map awaited =
    some [some (nsInB, 1), some (nsInA, 0)] := by
  decide +kernel

theorem chain : ((System.initial ()).runActions cfg world (fun s a => !s.joins a) (ask hostInA ++ chase 0 ++ chase 1)).map
    awaited = some [some (nsInB, 1), some (nsInA, 2), none] := by
  decide +kernel

/-- The calls for AAAA records fail, since the other call is at work on their name server; then nothing moves. -/
def drain : List Action :=
  replicate 3 (.lookup 0 .v6) ++ replicate 3 (.lookup 1 .v6) ++ replicate 10 (.call 2) ++ [.lookup 0 .v6] ++
    replicate 10 (.call 3) ++ [.lookup 1 .v6]

theorem stuck_circle : ((System.initial ()).runActions cfg world (fun _ _ => true)
    (ask nsInA ++ chase 0 ++ chase 1 ++ drain)).map (fun s => (awaited s, s.stuck cfg world)) =
      some ([some (nsInB, 1), some (nsInA, 0), none, none], true) := by
  decide +kernel

theorem waits_of_awaited {s : System Unit} {k j : Nat} {ns ns' : Name} {j' : Nat} (hk : (awaited s)[k]? = some (some (ns, j)))
    (hj : (awaited s)[j]? = some (some (ns', j'))) : s.Waits k j := by
  grind [awaited, System.Waits, Phase.awaits, System.outcome]

end MutualSample

section Drain

variable {Idx : Type} {cfg : Config Idx} {world : World} {s : System Idx}

/-- In every state reached by safe steps no call waits for itself through others, and as long as calls are in flight
some goroutine can move, and not for ever. -/
theorem waiting_acyclic (h : Run cfg world (System.Safe world) s) :
    Acyclic s.Waits ∧ ((∃ k, s.InFlight k) → ∃ s', Moves cfg world s' s) ∧ Acc (Moves cfg world) s := by
  obtain ⟨hsound, hacyclic⟩ := acyclic_of_run h
  refine ⟨hacyclic, ?_, acc_moves hsound⟩
  rintro ⟨k, hk⟩
  obtain ⟨a, s', ha, hstep⟩ := @exists_move _ cfg world s k hsound hacyclic hk
  exact ⟨s', a, ha, hstep⟩

end Drain

open MutualSample in
theorem waiting_acyclic_chain :
    ∃ s, Run cfg world (System.Safe world) s ∧ s.Waits 0 1 ∧ Acyclic s.Waits ∧
      ((∃ k, s.InFlight k) → ∃ s', Moves cfg world s' s) ∧
      Acc (Moves cfg world) s := by
  obtain ⟨s, hs, hawaited⟩ := Option.map_eq_some_iff.mp chain
  have hrun : Run cfg world (System.Safe world) s :=
    run_of_runActions (fun s a ha => safe_of_not_joins (Bool.not_eq_true' _ ▸ ha)) (.initial ()) hs
  refine ⟨s, hrun, ?_, waiting_acyclic hrun⟩
  exact waits_of_awaited (by rw [hawaited]; rfl) (by rw [hawaited]; rfl)

open MutualSample in
/-- One client is enough for a circle: its call for `x.a.` waits for that of `y.b.`, which waits for it. -/
theorem mutual_servers_wait :
    ∃ s, Run cfg world (fun _ _ => True) s ∧ s.Waits 0 1 ∧ s.Waits 1 0 ∧ ¬Acyclic s.Waits := by
  obtain ⟨s, hs, hawaited⟩ := Option.map_eq_some_iff.mp circle
  have hrun : Run cfg world (fun _ _ => True) s :=
    run_of_runActions (fun _ _ _ => trivial) (.initial ()) hs
  have h01 : s.Waits 0 1 := waits_of_awaited (by rw [hawaited]; rfl) (by rw [hawaited]; rfl)
  have h10 : s.Waits 1 0 := waits_of_awaited (by rw [hawaited]; rfl) (by rw [hawaited]; rfl)
  exact ⟨s, hrun, h01, h10, fun hacyclic => hacyclic 0 (.tail (.single h01) h10)⟩

section Drain

variable {Idx : Type} {cfg : Config Idx} {world : World} {s : System Idx}

/-- In whatever order the goroutines move, a lookup waits for a call of its own name and type, nobody moves for ever,
and with calls in flight they come to a stop only in a circle. -/
theorem resolve_stops {allowed : System Idx → Action → Prop} (h : Run cfg world allowed s) :
    (∀ (k : Nat) (c : Call) (family : Family) ns j, s.calls[k]? = some c → c.phase.awaits family = some (ns, j) →
      s.keyAt j = some (nameKey ns, family.type)) ∧
    Acc (Moves cfg world) s ∧
    ((∃ k, s.InFlight k) → (∀ s', ¬Moves cfg world s' s) → ∃ k, Relation.TransGen s.Waits k k) := by
  have hs : s.Sound world := by
    induction h with
    | initial denials => exact ⟨nofun, by simp [System.initial]⟩
    | step a _ _ hstep ih => exact ih.step hstep
  refine ⟨fun k c family ns j hc => (hs.calls k c hc).awaits family ns j, acc_moves hs, ?_⟩
  rintro ⟨k, hk⟩ hstuck
  by_contra hno
  obtain ⟨a, s', ha, hstep⟩ := exists_move hs (not_exists.mp hno) hk
  exact hstuck s' ⟨a, ha, hstep⟩

end Drain

open MutualSample in
/-- Two calls that wait for each other, with every other goroutine at its end. -/
theorem resolve_stops_circle : ∃ s, Run cfg world (fun _ _ => True) s ∧ s.Waits 0 1 ∧
    s.keyAt 1 = some (nameKey nsInB, .a) ∧ Acc (Moves cfg world) s ∧ (∀ s', ¬Moves cfg world s' s) ∧
    ∃ k, Relation.TransGen s.Waits k k := by
  obtain ⟨s, hs, hs'⟩ := Option.map_eq_some_iff.mp stuck_circle
  obtain ⟨hawaited, hstuck⟩ := Prod.mk.inj hs'
  have hrun : Run cfg world (fun _ _ => True) s := run_of_runActions (fun _ _ _ => trivial) (.initial ()) hs
  obtain ⟨hkeys, hacc, hcircle⟩ := resolve_stops hrun
  have h01 : s.Waits 0 1 := waits_of_awaited (by rw [hawaited]; rfl) (by rw [hawaited]; rfl)
  have h10 : s.Waits 1 0 := waits_of_awaited (by rw [hawaited]; rfl) (by rw [hawaited]; rfl)
  have hmoves : ∀ s', ¬Moves cfg world s' s := fun _ => not_moves_of_stuck hstuck
  have hfirst : (awaited s)[0]? = some (some (nsInB, 1)) := by rw [hawaited]; rfl
  rw [awaited, List.getElem?_map] at hfirst
  obtain ⟨c, hc, hawaits⟩ := Option.map_eq_some_iff.mp hfirst
  have hflight : s.InFlight 0 := by
    obtain ⟨-, -, -, -, -, hopen⟩ := h10
    exact inFlight_iff.mpr ⟨(List.getElem?_eq_some_iff.mp hc).1, hopen⟩
  exact ⟨s, hrun, h01, hkeys 0 c .v4 nsInB 1 hc hawaits, hacc, hmoves, hcircle ⟨0, hflight⟩ hmoves⟩

end Acidns.Recursive
