import Acidns.Recursive.CallSteps

/-!
# Who waits for whom

A call waits for the calls that its lookups of name servers have joined or started. A started call waits for
none yet, so it closes no circle. A joined call may already wait, through others, for the call that joins it:
then the delegations served lead from the name server back to the name the walk is for. Where they do not,
no circle is closed, and some call in flight can always go on.
-/

namespace Acidns.Recursive

open Program Resolver Waiting

variable {family : Family} {lookups : Family → Lookup} {found : List AddrPort} {todo : List Name} {ns : Name}
    {r : Referral}

namespace System

variable {Idx : Type}

def keyAt (s : System Idx) (k : Nat) : Option (Bytes × RRType) := (s.calls[k]?).map Call.key

/-- The one call waits for the other. -/
def Waits (s : System Idx) (k k' : Nat) : Prop :=
  ∃ c family ns, s.calls[k]? = some c ∧ c.phase.awaits family = some (ns, k') ∧ s.outcome k' = none

end System

/-! ### Where waiting comes from -/

section Sound

variable {Idx : Type} {cfg : Config Idx} {world : World} {s s' s₁ : System Idx} {levels k j : Nat} {name : Name} {t : RRType}
  {l l' : Lookup} {c : Call} {phase : Phase}

/-- A call waits only for name servers its target depends on. -/
structure Call.Justified (world : World) (keyAt : Nat → Option (Bytes × RRType)) (c : Call) : Prop where
  nameServers : ∀ ns ∈ c.phase.nameServers, Depends world (nameKey c.target) (nameKey ns)
  awaits : ∀ family ns k, c.phase.awaits family = some (ns, k) → keyAt k = some (nameKey ns, family.type)
  deep : c.phase.Deep c.levels

/-- The invariant of the system: each key leads to its own call. -/
structure System.Sound (world : World) (s : System Idx) : Prop where
  inflight : ∀ key k, s.inflight.lookup key = some k → s.keyAt k = some key
  calls : ∀ (k : Nat) (c : Call), s.calls[k]? = some c → c.Justified world s.keyAt

theorem awaits_chasing {ns' : Name} :
    (Phase.chasing r todo found ns lookups).awaits family = some (ns', k) ↔ ns' = ns ∧ lookups family = .waiting k := by
  grind [Phase.awaits]

theorem mem_nameServers_of_awaits (h : phase.awaits family = some (ns, k)) :
    ns ∈ phase.nameServers := by
  cases phase with
  | chasing r todo found ns' lookups =>
    obtain ⟨rfl, -⟩ := awaits_chasing.mp h
    exact .head _
  | _ => cases h

theorem awaits_update {ns' : Name}
    {family' : Family}
    (h : (Phase.chasing r todo found ns (Function.update lookups family l')).awaits family' = some (ns', k)) :
    (Phase.chasing r todo found ns lookups).awaits family' = some (ns', k) ∨
      family' = family ∧ ns' = ns ∧ l' = .waiting k := by
  grind [Phase.awaits]

theorem keyAt_setPhase : (s.setPhase k phase).keyAt = s.keyAt := by
  grind [System.keyAt, System.setPhase, Call.key]

theorem getElem?_setPhase (h : (s.setPhase k phase).calls[j]? = some c) :
    j ≠ k ∧ s.calls[j]? = some c ∨ j = k ∧ ∃ c₀, s.calls[k]? = some c₀ ∧ c = { c₀ with phase } := by
  grind [System.setPhase]

theorem System.Sound.setPhase (h : s.Sound world) (hc : s.calls[k]? = some c)
    (hj : Call.Justified world s.keyAt { c with phase }) : (s.setPhase k phase).Sound world := by
  constructor
  · intro key j hlookup
    rw [keyAt_setPhase]
    exact h.inflight key j hlookup
  · intro j c' hc'
    rw [keyAt_setPhase]
    rcases getElem?_setPhase hc' with ⟨-, hold⟩ | ⟨rfl, c₀, hc₀, rfl⟩
    · exact h.calls j c' hold
    · cases hc.symm.trans hc₀
      exact hj

theorem System.Sound.depends (h : s.Sound world) (hwaits : s.Waits k j) :
    Depends world ((s.keyAt k).elim [] Prod.fst) ((s.keyAt j).elim [] Prod.fst) := by
  obtain ⟨c, family, ns, hc, hawaits, -⟩ := hwaits
  have hj := h.calls k c hc
  rw [hj.awaits family ns j hawaits, System.keyAt, hc]
  exact hj.nameServers ns (mem_nameServers_of_awaits hawaits)

/-! ### Sound systems -/

theorem LookupStep.getElem? (h : LookupStep s levels name t l l' s₁) (hc : s₁.calls[j]? = some c) :
    s.calls[j]? = some c ∨ j = s.calls.length ∧ c.phase = .started := by
  cases h with
  | moved hcalls => exact .inl (hcalls ▸ hc)
  | joined _ _ _ _ hs => exact .inl (hs ▸ hc)
  | started _ _ hcalls => grind

section

variable (h : LookupStep s levels name t l l' s₁)

include h

theorem LookupStep.getElem?_of (hc : s.calls[j]? = some c) :
    s₁.calls[j]? = some c := by
  cases h with
  | moved hcalls => rwa [hcalls]
  | joined _ _ _ _ hs => rwa [hs]
  | started _ _ hcalls =>
    rw [hcalls, List.getElem?_append_left (List.getElem?_eq_some_iff.mp hc).1]
    exact hc

theorem LookupStep.keyAt {key : Bytes × RRType} (hkey : s.keyAt j = some key) :
    s₁.keyAt j = some key := by
  obtain ⟨c, hc, rfl⟩ := Option.map_eq_some_iff.mp hkey
  rw [System.keyAt, h.getElem?_of hc]
  rfl

theorem LookupStep.sound (hs : s.Sound world) : s₁.Sound world := by
  constructor
  · intro key j hlookup
    cases h with
    | moved hcalls hinflight =>
      rw [hinflight] at hlookup
      rw [System.keyAt, hcalls]
      exact hs.inflight key j hlookup
    | joined _ _ _ _ heq => exact heq ▸ hs.inflight key j (heq ▸ hlookup)
    | started hl hl' hcalls hinflight hclients =>
      rw [hinflight] at hlookup
      by_cases hkey : key = (nameKey name, t)
      · rw [hkey, AList.lookup_insert] at hlookup
        rw [System.keyAt, hcalls, ← Option.some.inj hlookup, List.getElem?_concat_length, hkey]
        rfl
      · rw [AList.lookup_insert_ne hkey] at hlookup
        exact (LookupStep.started hl hl' hcalls hinflight hclients).keyAt (hs.inflight key j hlookup)
  · intro j c hc
    rcases h.getElem? hc with hold | ⟨-, hphase⟩
    · have hj := hs.calls j c hold
      exact ⟨hj.nameServers, fun family ns k hawaits => h.keyAt (hj.awaits family ns k hawaits), hj.deep⟩
    · constructor
      · rw [hphase]
        exact List.forall_mem_nil _
      · intro family ns k hawaits
        rw [hphase] at hawaits
        cases hawaits
      · rw [hphase]
        trivial

theorem LookupStep.keyAt_waiting (hs : s.Sound world) (hl : l' = .waiting k) :
    s₁.keyAt k = some (nameKey name, t) := by
  cases h with
  | moved _ _ hl' => exact absurd hl (hl' k)
  | joined k' _ hk hl' heq =>
    cases hl'.symm.trans hl
    exact heq ▸ hs.inflight _ _ hk
  | started _ hl' hcalls =>
    cases hl'.symm.trans hl
    rw [System.keyAt, hcalls, List.getElem?_concat_length]
    rfl

end
theorem System.Sound.congr (h : s.Sound world) (hcalls : s'.calls = s.calls) (hinflight : s'.inflight = s.inflight) :
    s'.Sound world := by
  have hkeyAt : s'.keyAt = s.keyAt := by
    funext j
    rw [System.keyAt, System.keyAt, hcalls]
  constructor
  · rw [hkeyAt, hinflight]
    exact h.inflight
  · rw [hkeyAt, hcalls]
    exact h.calls

theorem Phase.Ready.justified {keyAt : Nat → Option (Bytes × RRType)} (h : phase.Ready world c.target) :
    Call.Justified world keyAt { c with phase } := by
  refine ⟨h.nameServers, fun family ns k hawaits => ?_, h.deep c.levels⟩
  rw [h.awaits family] at hawaits
  cases hawaits

/-- Every action keeps the invariant. -/
theorem System.Sound.step {a : Action} (h : s.Sound world) (hstep : s.step cfg world a = some s') : s'.Sound world := by
  cases step_effect hstep with
  | quiet hcalls hinflight => exact h.congr hcalls hinflight
  | client name t l l' hlookup hcalls hinflight => exact (hlookup.sound h).congr hcalls hinflight
  | worked k c phase s₁ hc _ honward hcalls hinflight _ hs =>
    have hkeyAt : s₁.keyAt = s.keyAt := by
      funext j
      rw [System.keyAt, System.keyAt, hcalls]
    have hs₁ : s₁.Sound world := by
      refine ⟨fun key j hlookup => hkeyAt ▸ h.inflight key j (hinflight key j hlookup), ?_⟩
      rw [hkeyAt, hcalls]
      exact h.calls
    subst hs
    exact hs₁.setPhase (hcalls ▸ hc) (honward (h.calls k c hc).nameServers).ready.justified
  | chased k family c r todo found ns lookups l' s₁ hc hphase hlookup _ hs =>
    have hj := h.calls k c hc
    have hservers := hj.nameServers
    have hdeep := hj.deep
    rw [hphase] at hservers hdeep
    subst hs
    refine (hlookup.sound h).setPhase (hlookup.getElem?_of hc) ⟨hservers, ?_, ?_⟩
    · intro family' ns' k' hawaits
      rcases awaits_update hawaits with hold | ⟨rfl, rfl, hl'⟩
      · exact hlookup.keyAt (hj.awaits family' ns' k' (hphase ▸ hold))
      · exact hlookup.keyAt_waiting h hl'
    · intro family'
      by_cases hf : family' = family
      · subst hf
        rw [Function.update_self]
        exact hlookup.deep (hdeep family')
      · rw [Function.update_of_ne hf]
        exact hdeep family'

end Sound

/-! ### No circles -/

section Acyclic

variable {Idx : Type} {cfg : Config Idx} {world : World} {s s' s₁ : System Idx} {levels k x y : Nat} {name : Name} {t : RRType}
  {l l' : Lookup} {c : Call} {phase : Phase} {a : Action}

theorem outcome_eq_some {outcome : Except ResolveError Entry} :
    s.outcome k = some outcome ↔ ∃ c, s.calls[k]? = some c ∧ c.phase = .closed outcome := by
  unfold System.outcome
  constructor
  · intro h
    split at h
    · rename_i heq
      exact ⟨_, heq, Option.some.inj h ▸ rfl⟩
    · cases h
  · rintro ⟨⟨target, t, levels, phase⟩, hc, hphase⟩
    obtain rfl : phase = .closed outcome := hphase
    rw [hc]

theorem LookupStep.outcome_eq_none (h : LookupStep s levels name t l l' s₁) (hk : s₁.outcome k = none) :
    s.outcome k = none := by
  rw [Option.eq_none_iff_forall_ne_some] at hk ⊢
  intro outcome ho
  obtain ⟨c, hc, hphase⟩ := outcome_eq_some.mp ho
  exact hk outcome (outcome_eq_some.mpr ⟨c, h.getElem?_of hc, hphase⟩)

theorem waits_of_calls {s' : System Idx} (hcalls : s'.calls = s.calls) (hw : s'.Waits x y) : s.Waits x y := by
  grind [System.outcome, System.Waits]

theorem LookupStep.waits (h : LookupStep s levels name t l l' s₁) (hw : s₁.Waits x y) : s.Waits x y := by
  obtain ⟨c, family, ns, hc, hawaits, hout⟩ := hw
  rcases h.getElem? hc with hold | ⟨-, hphase⟩
  · exact ⟨c, family, ns, hold, hawaits, h.outcome_eq_none hout⟩
  · rw [hphase] at hawaits
    cases hawaits

theorem waits_setPhase (hc : s.calls[k]? = some c) (hopen : ∀ outcome, c.phase ≠ .closed outcome)
    (hw : (s.setPhase k phase).Waits x y) :
    s.Waits x y ∨ x = k ∧ s.outcome y = none ∧ ∃ family ns, phase.awaits family = some (ns, y) := by
  obtain ⟨c', family, ns, hc', hawaits, hout⟩ := hw
  have hout' : s.outcome y = none := by
    rw [Option.eq_none_iff_forall_ne_some] at hout ⊢
    intro outcome ho
    obtain ⟨d, hd, hphase⟩ := outcome_eq_some.mp ho
    refine hout outcome (outcome_eq_some.mpr ⟨d, ?_, hphase⟩)
    have hne : k ≠ y := by
      rintro rfl
      exact hopen outcome (Option.some.inj (hc.symm.trans hd) ▸ hphase)
    rw [System.setPhase, List.getElem?_modify, hd]
    simp [hne]
  rcases getElem?_setPhase hc' with ⟨-, hold⟩ | ⟨rfl, c₀, hc₀, rfl⟩
  · exact .inl ⟨c', family, ns, hold, hawaits, hout'⟩
  · exact .inr ⟨rfl, hout', family, ns, hawaits⟩

/-- A lookup that would wait: the delegations for the name server do not lead back to the name of the walk. -/
def System.Safe (world : World) (s : System Idx) (a : Action) : Prop :=
  ∀ k family c r todo found ns lookups, a = .lookup k family → s.calls[k]? = some c →
    c.phase = .chasing r todo found ns lookups → lookups family = .unproven →
    (s.inflight.lookup (nameKey ns, family.type)).isSome →
    ¬Relation.ReflTransGen (Depends world) (nameKey ns) (nameKey c.target)

theorem not_waits_back (hs : s.Sound world) (hsafe : s.Safe world (.lookup k family)) (hc : s.calls[k]? = some c)
    (hphase : c.phase = .chasing r todo found ns lookups)
    (hstep : LookupStep s c.levels ns family.type (lookups family) (.waiting y) s₁) :
    ¬Relation.ReflTransGen s₁.Waits y k := by
  intro hback
  have hback' : Relation.ReflTransGen s.Waits y k := Relation.ReflTransGen.mono (fun _ _ => hstep.waits) _ _ hback
  cases hstep with
  | moved _ _ hl' => exact hl' y rfl
  | joined y' hl hk hl' =>
    cases hl'
    have hpath : Relation.ReflTransGen (Depends world) ((s.keyAt y).elim [] Prod.fst) ((s.keyAt k).elim [] Prod.fst) :=
      hback'.lift (fun j => (s.keyAt j).elim [] Prod.fst) fun _ _ => hs.depends
    rw [hs.inflight _ _ hk, System.keyAt, hc] at hpath
    exact hsafe k family c r todo found ns lookups rfl hc hphase hl (hk ▸ rfl) hpath
  | started _ hl' =>
    -- the call is new, so it is neither the one that waits nor waits for any
    cases hl'
    rcases Relation.ReflTransGen.cases_head hback' with heq | ⟨j, ⟨c', _, _, hc', -⟩, -⟩
    · exact absurd (List.getElem?_eq_some_iff.mp hc).1 (heq ▸ Nat.lt_irrefl _)
    · exact absurd (List.getElem?_eq_some_iff.mp hc').1 (Nat.lt_irrefl _)

/-- No step closes a cycle of waiting calls. -/
theorem acyclic_step (hs : s.Sound world) (hsafe : s.Safe world a) (h : Acyclic s.Waits)
    (hstep : s.step cfg world a = some s') : Acyclic s'.Waits := by
  cases step_effect hstep with
  | quiet hcalls => exact h.mono fun x y => waits_of_calls hcalls
  | client name t l l' hlookup hcalls =>
    exact h.mono fun x y hw => hlookup.waits (waits_of_calls hcalls hw)
  | worked k c phase s₁ hc hopen honward hcalls _ _ hs' =>
    have hready := (honward (hs.calls k c hc).nameServers).ready
    subst hs'
    refine h.mono fun x y hw => ?_
    rcases waits_setPhase (hcalls ▸ hc) hopen hw with hold | ⟨-, -, family, ns, hawaits⟩
    · exact waits_of_calls hcalls hold
    · rw [hready.awaits family] at hawaits
      cases hawaits
  | chased k family c r todo found ns lookups l' s₁ hc hphase hlookup ha hs' =>
    subst hs'
    have h₁ : Acyclic s₁.Waits := h.mono fun x y => hlookup.waits
    -- what the other lookup waits for was waited for before
    have hedges : ∀ x y, (s₁.setPhase k (.chasing r todo found ns (Function.update lookups family l'))).Waits x y →
        s₁.Waits x y ∨ x = k ∧ l' = .waiting y := by
      intro x y hw
      rcases waits_setPhase (hlookup.getElem?_of hc) (by rw [hphase]; exact nofun) hw with
        hold | ⟨rfl, hout, family', ns', hawaits⟩
      · exact .inl hold
      · rcases awaits_update hawaits with hold | ⟨-, -, hl'⟩
        · exact .inl ⟨c, family', ns', hlookup.getElem?_of hc, hphase ▸ hold, hout⟩
        · exact .inr ⟨rfl, hl'⟩
    by_cases hwaiting : ∃ y, l' = .waiting y
    · obtain ⟨y, rfl⟩ := hwaiting
      obtain rfl := ha.resolve_right fun hne => hne y rfl
      refine h₁.of_edge (fun x z hw => (hedges x z hw).imp_right fun hxz => ⟨hxz.1, ?_⟩)
        (not_waits_back hs hsafe hc hphase hlookup)
      exact (Lookup.waiting.inj hxz.2).symm
    · exact h₁.mono fun x y hw => (hedges x y hw).resolve_right fun hxy => hwaiting ⟨y, hxy.2⟩

theorem acyclic_of_run (h : Run cfg world (System.Safe world) s) : s.Sound world ∧ Acyclic s.Waits := by
  induction h with
  | initial denials =>
    have hnone : ∀ (k : Nat) (c : Call), (System.initial denials : System Idx).calls[k]? ≠ some c := by
      simp [System.initial]
    refine ⟨⟨nofun, fun k c hc => absurd hc (hnone k c)⟩, fun k hcircle => ?_⟩
    obtain ⟨j, ⟨c, _, _, hc, -⟩, -⟩ := Relation.TransGen.head'_iff.mp hcircle
    exact hnone k c hc
  | step a _ hsafe hstep ih => exact ⟨ih.1.step hstep, acyclic_step ih.1 hsafe ih.2 hstep⟩

end Acyclic

/-! ### Going on -/

section Progress

variable {Idx : Type} {cfg : Config Idx} {world : World} {s : System Idx} {levels k : Nat} {name : Name} {t : RRType}
  {l : Lookup} {c : Call}

def System.InFlight (s : System Idx) (k : Nat) : Prop :=
  ∃ c, s.calls[k]? = some c ∧ ∀ outcome, c.phase ≠ .closed outcome

theorem inFlight_iff : s.InFlight k ↔ k < s.calls.length ∧ s.outcome k = none := by
  rw [Option.eq_none_iff_forall_ne_some]
  constructor
  · rintro ⟨c, hc, hopen⟩
    refine ⟨(List.getElem?_eq_some_iff.mp hc).1, fun outcome ho => ?_⟩
    obtain ⟨c', hc', hphase⟩ := outcome_eq_some.mp ho
    exact hopen outcome (Option.some.inj (hc'.symm.trans hc) ▸ hphase)
  · rintro ⟨hlt, hopen⟩
    exact ⟨s.calls[k], List.getElem?_eq_getElem hlt, fun outcome hphase =>
      hopen outcome (outcome_eq_some.mpr ⟨_, List.getElem?_eq_getElem hlt, hphase⟩)⟩

theorem exists_moveLookup (hl : ∀ outcome, l ≠ .done outcome) (hwait : ∀ j, l = .waiting j → s.outcome j ≠ none) :
    ∃ next, s.moveLookup cfg world levels name t l = some next := by
  cases l with
  | start =>
    rw [System.moveLookup]
    split
    · exact ⟨_, rfl⟩
    · exact ⟨_, rfl⟩
  | missed => exact ⟨_, rfl⟩
  | unproven => exact ⟨_, rfl⟩
  | waiting j =>
    obtain ⟨outcome, ho⟩ := Option.ne_none_iff_exists'.mp (hwait j rfl)
    exact ⟨(.done outcome, s), by rw [System.moveLookup, ho]; rfl⟩
  | done outcome => exact absurd rfl (hl outcome)

/-- A call that waits for nobody can move. -/
theorem exists_move_of_free (hc : s.calls[k]? = some c) (hopen : ∀ outcome, c.phase ≠ .closed outcome)
    (hfree : ∀ j, ¬s.Waits k j) : ∃ a s', a.IsMove ∧ s.step cfg world a = some s' := by
  have hmove : ∀ s', s.moveCall cfg world k = some s' → ∃ a s', Action.IsMove a ∧ s.step cfg world a = some s' :=
    fun s' h => ⟨.call k, s', trivial, h⟩
  obtain ⟨target, t, levels, phase⟩ := c
  cases phase with
  | walking left w => cases left <;> exact hmove _ (Option.bind_eq_some_iff.mpr ⟨_, hc, rfl⟩)
  | referred r todo found => cases todo <;> exact hmove _ (Option.bind_eq_some_iff.mpr ⟨_, hc, rfl⟩)
  | chasing r todo found ns lookups =>
    by_cases hdone : ∀ family, ∃ outcome, lookups family = .done outcome
    · obtain ⟨a4, h4⟩ := hdone .v4
      obtain ⟨a6, h6⟩ := hdone .v6
      have hwork : Call.work cfg world ⟨target, t, levels, .chasing r todo found ns lookups⟩ =
          some (unmark r ns todo (found ++ (addressesIn a4 .a ++ addressesIn a6 .aaaa))) := by
        simp only [Call.work, h4, h6]
      exact hmove _ (Option.bind_eq_some_iff.mpr ⟨_, hc, Option.bind_eq_some_iff.mpr ⟨_, hwork, rfl⟩⟩)
    · obtain ⟨family, hpending⟩ := not_forall.mp hdone
      have hwait : ∀ j, lookups family = .waiting j → s.outcome j ≠ none := fun j hj hout =>
        hfree j ⟨_, family, ns, hc, awaits_chasing.mpr ⟨rfl, hj⟩, hout⟩
      obtain ⟨next, hnext⟩ := @exists_moveLookup _ cfg world s levels ns family.type _
        (fun outcome heq => hpending ⟨outcome, heq⟩) hwait
      exact ⟨.lookup k family, _, trivial, Option.bind_eq_some_iff.mpr
        ⟨_, hc, Option.bind_eq_some_iff.mpr ⟨next, hnext, rfl⟩⟩⟩
  | closed outcome => exact absurd rfl (hopen outcome)
  | _ => exact hmove _ (Option.bind_eq_some_iff.mpr ⟨_, hc, rfl⟩)

theorem exists_move (hs : s.Sound world) (h : Acyclic s.Waits) (hk : s.InFlight k) :
    ∃ a s', Action.IsMove a ∧ s.step cfg world a = some s' := by
  have hfinite : Finite { k | s.InFlight k } :=
    (Set.finite_lt_nat s.calls.length).subset fun j hj => (inFlight_iff.mp hj).1
  have hclosed : ∀ x ∈ { k | s.InFlight k }, ∀ y, s.Waits x y → y ∈ { k | s.InFlight k } := by
    rintro x - y ⟨c, family, ns, hc, hawaits, hout⟩
    obtain ⟨c', hc', -⟩ := Option.map_eq_some_iff.mp ((hs.calls x c hc).awaits family ns y hawaits)
    exact inFlight_iff.mpr ⟨(List.getElem?_eq_some_iff.mp hc').1, hout⟩
  obtain ⟨j, ⟨c, hc, hopen⟩, hfree⟩ := h.exists_free ⟨k, hk⟩ hclosed
  exact exists_move_of_free hc hopen hfree

end Progress

end Acidns.Recursive
