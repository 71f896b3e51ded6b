import Acidns.Recursive.Concurrent

/-!
# Where referrals lead

`resolveDepthInner` of `recursive/recursive.go` moves its closest zone to the owner of the name servers of any
referral it follows. It does not compare that name with the target or with the zone it comes from: the walk goes
down towards the target as far as the referrals do.
-/

namespace Acidns.Recursive

open List

theorem encloses_minimisedQName {target : Name} (htarget : target.isValid) (closestZone : Name) :
    (minimisedQName closestZone target).Encloses target := by
  suffices h : ∀ fuel n, n.Encloses target → (minimisedLoop closestZone.numLabels target fuel n).Encloses target from
    h _ _ (.refl htarget)
  intro fuel
  induction fuel with
  | zero => exact fun n hn => hn
  | succ fuel ih =>
    intro n hn
    rw [minimisedLoop]
    split
    · cases hparent : n.parent with
      | none => exact .refl htarget
      | some p =>
        simp only
        split
        · exact .refl htarget
        · exact ih p ((Name.encloses_of_parent hn.1 hparent).trans hn)
    · exact hn

namespace Resolver

open Program

variable {Idx : Type} (cfg : Config Idx) (world : World) (lookup : Name → RRType → Resolver Idx Entry) (target : Name)
  (t : RRType)

/-- The walk takes the referral and goes on. -/
def Follows (w : Walk) (resp : Message) (w' : Walk) : Prop := isReferral resp ∧ w'.fellBack = w.fellBack

/-- The zone is strictly below the closest zone and at or above the target. -/
def Onward (w : Walk) (zone : Name) : Prop :=
  w.closestZone.Encloses zone ∧ zone ≠ w.closestZone ∧ zone.Encloses target

/-- What a check of the response could see: its name servers are for a name of the target's own branch that has more
labels than the closest zone. -/
def NamesDeeper (w : Walk) (resp : Message) : Prop :=
  (referralZone resp).Encloses target ∧ w.closestZone.numLabels < (referralZone resp).numLabels

instance (w : Walk) (resp : Message) : Decidable (NamesDeeper target w resp) := inferInstanceAs (Decidable (_ ∧ _))

/-- The walks with any responses, as long as every referral that is followed passes the check. -/
inductive Visits : Walk → Prop
  | start (servers : List AddrPort) : Visits ⟨servers, .root, !cfg.qnameMin, []⟩
  | step {w w' : Walk} {reply : Reply} {s s₁ s' : State Idx} : Visits w →
    walkQuery world target t w s = (.ok reply, s₁) → walkStep cfg world lookup target t w s = (.ok (.inr w'), s') →
    (Follows w reply.resp w' → NamesDeeper target w reply.resp) → Visits w'

variable {cfg world lookup target t} {w w' : Walk} {reply : Reply} {s s₁ s' : State Idx}

theorem queryName_of_walkQuery (h : walkQuery world target t w s = (.ok reply, s₁)) :
    reply.queryName = if w.fellBack then target else minimisedQName w.closestZone target := by
  unfold walkQuery at h
  split at h
  · cases h
  · obtain ⟨ranked, s₂, -, h⟩ := exists_of_bind_eq_ok h
    obtain ⟨answer, s₃, -, h⟩ := exists_of_bind_eq_ok h
    cases h
    rfl

theorem finish_ne_inr {resp : Message} : finish cfg world target t resp s ≠ (.ok (.inr w'), s') := by
  intro h
  obtain ⟨now, s₂, -, h⟩ := exists_of_bind_eq_ok h
  obtain ⟨u, s₃, -, h⟩ := exists_of_bind_eq_ok h
  cases h

theorem walkStep_closestZone (hquery : walkQuery world target t w s = (.ok reply, s₁))
    (hstep : walkStep cfg world lookup target t w s = (.ok (.inr w'), s')) :
    ¬Follows w reply.resp w' ∧ (w'.closestZone = w.closestZone ∨ w'.closestZone = reply.queryName) ∨
      Follows w reply.resp w' ∧ w'.closestZone =
        if (referralZone reply.resp).isValid then referralZone reply.resp else w.closestZone := by
  rw [walkStep_eq, bind_of_ok hquery] at hstep
  split at hstep
  · next href =>
    obtain ⟨next, s₂, -, hstep⟩ := exists_of_bind_eq_ok hstep
    unfold afterReferral at hstep
    split at hstep
    · cases hstep
      exact .inr ⟨⟨href, rfl⟩, rfl⟩
    split at hstep
    · exact absurd hstep finish_ne_inr
    split at hstep
    · next hfell =>
      cases hstep
      refine .inl ⟨fun h => ?_, .inl rfl⟩
      rw [← h.2] at hfell
      cases hfell
    · cases hstep
  · next href =>
    refine .inl ⟨fun h => href h.1, ?_⟩
    unfold afterResponse at hstep
    split at hstep
    · simp only at hstep
      split at hstep
      · cases hstep
        exact .inl rfl
      split at hstep <;> cases hstep
      exact .inl rfl
    split at hstep
    · exact absurd hstep finish_ne_inr
    split at hstep <;> cases hstep
    · exact .inr rfl
    · exact .inl rfl

/-- Names of one branch are in order of their labels. -/
theorem onward_iff_deeper (h : w.closestZone.Encloses target) {resp : Message} :
    Onward target w (referralZone resp) ↔ NamesDeeper target w resp := by
  constructor
  · rintro ⟨hbelow, hne, habove⟩
    refine ⟨habove, hbelow.2.2.length_le.lt_of_ne fun hlength => hne ?_⟩
    exact (Name.ext_of_labels hbelow.1 hbelow.2.1 (hbelow.2.2.eq_of_length hlength)).symm
  · rintro ⟨habove, hlabels⟩
    refine ⟨⟨h.1, habove.1, suffix_of_suffix_length_le h.2.2 habove.2.2 hlabels.le⟩, fun heq => ?_, habove⟩
    rw [heq] at hlabels
    exact hlabels.false

/-- While every referral that is followed passes the check, the closest zone is at or above the target, through lame
servers, empty non-terminals and the fall-back; and a referral moves it strictly down towards the target exactly if it
passes. -/
theorem closestZone_onward_iff (htarget : target.isValid) (hw : Visits cfg world lookup target t w) :
    w.closestZone.Encloses target ∧
    ∀ {w' reply s s₁ s'}, walkQuery world target t w s = (.ok reply, s₁) →
      walkStep cfg world lookup target t w s = (.ok (.inr w'), s') → Follows w reply.resp w' →
        (Onward target w w'.closestZone ↔ NamesDeeper target w reply.resp) := by
  have habove : w.closestZone.Encloses target := by
    induction hw with
    | start servers => exact ⟨rfl, htarget, Name.labels_root ▸ nil_suffix⟩
    | @step w w' reply s s₁ s' _ hquery hstep hdeeper ih =>
      rcases walkStep_closestZone hquery hstep with ⟨-, hzone | hzone⟩ | ⟨hfollows, hzone⟩ <;> rw [hzone]
      · exact ih
      · rw [queryName_of_walkQuery hquery]
        split
        · exact .refl htarget
        · exact encloses_minimisedQName htarget _
      · have hnext := (hdeeper hfollows).1
        rw [if_pos hnext.1]
        exact hnext
  refine ⟨habove, fun {w' reply s s₁ s'} hquery hstep hfollows => ?_⟩
  rcases walkStep_closestZone hquery hstep with ⟨hnot, -⟩ | ⟨-, hzone⟩
  · exact absurd hfollows hnot
  · rw [hzone]
    split
    · exact onward_iff_deeper habove
    · next hvalid => exact iff_of_false (fun h => h.2.1 rfl) fun h => hvalid h.1.1

namespace ReferralSample

def referralTo (zone : Name) : Message :=
  ⟨0, 0x8000, [], [], [newRecord zone second (.ns zone)], [newRecord zone second (.a ⟨[192, 0, 2, 3], rfl⟩)], none⟩

def referring (zone : Name) : World where
  clock _ := 0
  roots _ := [⟨[192, 0, 2, 1], 53⟩]
  rank _ servers := servers
  take _ _ := true
  randomID _ := .ok 0
  exchange _ _ _ := .ok (referralTo zone)
  expired _ := false

def config : Config Unit := .new ⟨fun _ _ _ _ => none, fun _ _ _ _ => none, fun _ _ _ => ()⟩ none oneShard

def rootWalk : Walk := ⟨[⟨[192, 0, 2, 1], 53⟩], .root, false, []⟩

def firstRound (zone : Name) : Except ResolveError (Entry ⊕ Walk) × State Unit :=
  walkStep config (referring zone) (fun _ _ => fail .context) Name.Short.ba .a rootWalk (.initial ())

end ReferralSample

open ReferralSample Name.Short in
/-- The first round goes from the root to `a.` on the way to `b.a.`, and the walk is at or above it from then on. -/
theorem closestZone_onward_sample : ∃ w s', firstRound a = (.ok (.inr w), s') ∧ Onward ba rootWalk w.closestZone ∧
    w.closestZone.Encloses ba := by
  have hstart : Visits config (referring a) (fun _ _ => fail .context) ba .a rootWalk := .start [⟨[192, 0, 2, 1], 53⟩]
  have hdeeper : NamesDeeper ba rootWalk (referralTo a) := by decide
  refine ⟨⟨[⟨[192, 0, 2, 3], 53⟩], a, false, []⟩, _, rfl, ?_, ?_⟩
  · exact ((closestZone_onward_iff (by decide) hstart).2 (s := .initial ()) rfl rfl ⟨by decide, rfl⟩).mpr hdeeper
  · exact (closestZone_onward_iff (by decide) (.step (s := .initial ()) hstart rfl rfl fun _ => hdeeper)).1

open ReferralSample Name.Short in
/-- A referral to another part of the tree is followed. -/
theorem closestZone_sideways : ∃ w s', firstRound k = (.ok (.inr w), s') ∧ w.closestZone = k ∧ ¬w.closestZone.Encloses ba :=
  ⟨⟨[⟨[192, 0, 2, 3], 53⟩], k, false, []⟩, _, rfl, rfl, by decide⟩

end Resolver

end Acidns.Recursive
