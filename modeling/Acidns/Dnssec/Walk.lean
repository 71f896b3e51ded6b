import Acidns.Dnssec.Resolve

/-!
# Runs of the walk

The states that the walk goes through on its way from an anchor to a name. A run ends, for each round goes one
label further down, and at every state the keys in hand are those of the deepest signed zone found so far.
-/

namespace Acidns.ChainWalker

variable {s : WalkState}

variable {cw : ChainWalker} {anchor : Anchor} {qname : Name} {qtype : RRType}

/-- The states of the walk from an anchor whose keys are verified. -/
inductive Reaches (cw : ChainWalker) (anchor : Anchor) (qname : Name) : WalkState → Prop where
  | start {keys : List DNSKEY} (h : cw.fetchAndVerifyDNSKEY anchor.name anchor.dss = .ok keys) :
      Reaches cw anchor qname ⟨[⟨anchor.name, keys, anchor.dss, .secure⟩], keys, anchor.name⟩
  | step {s s' : WalkState} (hs : Reaches cw anchor qname s) (h : cw.walkStep qname s = .inl s') :
      Reaches cw anchor qname s'

def nextCandidate (qname : Name) (s : WalkState) : Name := truncateNameTo qname (s.zone.numLabels + 1)

theorem walkStep_inl {s' : WalkState} (h : cw.walkStep qname s = .inl s') :
    s.zone.numLabels + 1 ≤ qname.numLabels ∧ s'.zone = nextCandidate qname s ∧
      (s'.chain = s.chain ∧ s'.parentKeys = s.parentKeys ∨
        ∃ dss, cw.fetchAndVerifyDNSKEY s'.zone dss = .ok s'.parentKeys ∧
          s'.chain = s.chain ++ [⟨s'.zone, s'.parentKeys, dss, .secure⟩]) := by
  unfold walkStep at h
  split at h
  · cases h
  split at h
  · cases h
  split at h
  · cases h
  next hlabels =>
    refine ⟨by omega, ?_⟩
    dsimp only at h
    split at h
    · cases h
    split at h
    · cases h
    split at h
    · cases h
    · next dss hdss =>
      split at h
      · cases h
      · next keys hkeys =>
        cases h
        exact ⟨rfl, .inr ⟨dss, hkeys, rfl⟩⟩
    · cases h
    · cases h
      exact ⟨rfl, .inl ⟨rfl, rfl⟩⟩
    · split at h <;> cases h

theorem walkStep_inr (hq : qname.isValid = true) {out : WalkEnd}
    (h : cw.walkStep qname s = .inr out) :
    out.err.isSome ∨ out.insecureFrom.isValid = true ∨ out = ⟨s.chain, s.parentKeys, .zero, none⟩ := by
  unfold walkStep at h
  split at h
  · cases h
    exact .inr (.inr rfl)
  split at h
  · cases h
    exact .inl rfl
  split at h
  · cases h
    exact .inr (.inr rfl)
  next hlabels =>
    have hvalid : (truncateNameTo qname (s.zone.numLabels + 1)).isValid = true :=
      (truncateNameTo_spec hq (by omega)).1.1
    dsimp only at h
    split at h
    · cases h
      exact .inr (.inl hvalid)
    split at h
    · cases h
      exact .inl rfl
    split at h
    · cases h
      exact .inl rfl
    · split at h
      · cases h
        exact .inl rfl
      · cases h
    · cases h
      exact .inr (.inl hvalid)
    · cases h
    · split at h <;> cases h <;> exact .inl rfl

/-- The walk asks for the DS records one label down. -/
structure Asks (cw : ChainWalker) (qname : Name) (s : WalkState) (dsMsg : Message) : Prop where
  above : s.zone.numLabels < qname.numLabels
  cuts : s.chain.length ≤ cw.maxZoneCuts
  nta : cw.ntas.covers (nextCandidate qname s) = false
  answered : cw.source false (nextCandidate qname s) .ds = .ok dsMsg

theorem Asks.walkStep_eq {dsMsg : Message} (h : cw.Asks qname s dsMsg) :
    cw.walkStep qname s =
      match cw.classifyDSResponse (nextCandidate qname s) s.zone s.parentKeys dsMsg with
      | .error cause => .inr ⟨s.chain, [], .zero, some (.dsClassify (nextCandidate qname s) cause)⟩
      | .ok (.cut dss) =>
        match cw.fetchAndVerifyDNSKEY (nextCandidate qname s) dss with
        | .error cause => .inr ⟨s.chain, [], .zero, some (.dnskey (nextCandidate qname s) cause)⟩
        | .ok childKeys =>
          .inl ⟨s.chain ++ [⟨nextCandidate qname s, childKeys, dss, .secure⟩], childKeys, nextCandidate qname s⟩
      | .ok .insecure =>
        .inr ⟨s.chain ++ [⟨nextCandidate qname s, [], [], .insecure⟩], s.parentKeys, nextCandidate qname s, none⟩
      | .ok .nonCut => .inl { s with zone := nextCandidate qname s }
      | .ok .nxdomain =>
        if (nextCandidate qname s).equal qname then
          .inr ⟨s.chain ++ [⟨nextCandidate qname s, [], [], .secure⟩], s.parentKeys, nextCandidate qname s,
            some .nxdomainAtCandidate⟩
        else .inr ⟨s.chain, [], .zero, some (.nxdomainAtStep (nextCandidate qname s))⟩ := by
  have hne : ¬s.zone.equal qname = true := by
    intro heq
    have habove := h.above
    rw [Name.equal_iff.mp heq] at habove
    exact Nat.lt_irrefl _ habove
  have hcuts := h.cuts
  have habove := h.above
  have hnta : cw.ntas.covers (truncateNameTo qname (s.zone.numLabels + 1)) = false := h.nta
  have hanswered : cw.source false (truncateNameTo qname (s.zone.numLabels + 1)) .ds = .ok dsMsg := h.answered
  rw [walkStep, if_neg hne, if_neg (by omega), if_neg (by omega)]
  simp only [hnta, hanswered]
  rfl

/-! ### The end of a run -/

theorem numLabels_of_walkStep (hq : qname.isValid = true) {s' : WalkState} (h : cw.walkStep qname s = .inl s') :
    s'.zone.numLabels = s.zone.numLabels + 1 ∧ s.zone.numLabels < qname.numLabels := by
  obtain ⟨hlabels, hzone, -⟩ := walkStep_inl h
  rw [hzone]
  exact ⟨(truncateNameTo_spec hq hlabels).2, hlabels⟩

section

variable (hq : qname.isValid = true)

include hq

theorem walkLoop_spec {fuel : Nat} (hs : cw.Reaches anchor qname s)
    (hfuel : qname.numLabels - s.zone.numLabels < fuel) :
    ∃ t, cw.Reaches anchor qname t ∧ cw.walkStep qname t = .inr (cw.walkLoop qname fuel s) := by
  induction fuel generalizing s with
  | zero => omega
  | succ fuel ih =>
    rw [walkLoop]
    cases hstep : cw.walkStep qname s with
    | inl s' =>
      have hlabels := numLabels_of_walkStep hq hstep
      exact ih (hs.step hstep) (by omega)
    | inr out => exact ⟨s, hs, hstep⟩

theorem walkChain_spec :
    (∃ cause, cw.walkChain anchor qname = ⟨[], [], .zero, some (.anchor anchor.name cause)⟩) ∨
      ∃ s, cw.Reaches anchor qname s ∧ cw.walkStep qname s = .inr (cw.walkChain anchor qname) := by
  unfold walkChain
  split
  · next cause _ => exact .inl ⟨cause, rfl⟩
  · next keys hkeys => exact .inr (walkLoop_spec hq (.start hkeys) (by omega))

theorem Reaches.walkChain_eq (hs : cw.Reaches anchor qname s) :
    ∃ fuel, qname.numLabels - s.zone.numLabels < fuel ∧ cw.walkChain anchor qname = cw.walkLoop qname fuel s := by
  induction hs with
  | start h =>
    refine ⟨qname.numLabels + 1, by dsimp only; omega, ?_⟩
    rw [walkChain, h]
  | step hs h ih =>
    obtain ⟨fuel, hfuel, heq⟩ := ih
    have hlabels := numLabels_of_walkStep hq h
    cases fuel with
    | zero => omega
    | succ fuel =>
      refine ⟨fuel, by omega, ?_⟩
      rw [heq, walkLoop, h]

theorem Reaches.walkChain_eq_of_inr {out : WalkEnd}
    (hs : cw.Reaches anchor qname s) (h : cw.walkStep qname s = .inr out) : cw.walkChain anchor qname = out := by
  obtain ⟨fuel, hfuel, heq⟩ := hs.walkChain_eq hq
  cases fuel with
  | zero => omega
  | succ fuel => rw [heq, walkLoop, h]

theorem resolve_eq (hnta : cw.ntas.covers qname = false)
    (hanchor : closestAnchor cw.anchors qname = some anchor) :
    cw.resolve qname qtype = cw.resolveFrom qname qtype (cw.walkChain anchor qname) := by
  rw [resolve, hq, hnta, hanchor]
  rfl

end
/-! ### The deepest signed zone -/

/-- The last step is a signed zone, and the keys in hand are its verified keys. -/
def WalkState.AtZone (cw : ChainWalker) (s : WalkState) : Prop :=
  ∃ front step, s.chain = front ++ [step] ∧ step.res = .secure ∧ step.keys = s.parentKeys ∧
    cw.fetchAndVerifyDNSKEY step.zone step.dss = .ok step.keys

theorem Reaches.atZone (hs : cw.Reaches anchor qname s) : s.AtZone cw := by
  induction hs with
  | start h => exact ⟨[], _, rfl, rfl, rfl, h⟩
  | step hs h ih =>
    obtain ⟨-, -, hrest⟩ := walkStep_inl h
    rcases hrest with ⟨hchain, hkeys⟩ | ⟨dss, hfetch, hchain⟩
    · unfold WalkState.AtZone
      rw [hchain, hkeys]
      exact ih
    · exact ⟨_, _, hchain, rfl, rfl, hfetch⟩

end Acidns.ChainWalker
