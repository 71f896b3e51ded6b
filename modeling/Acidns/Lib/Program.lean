import Mathlib.Tactic.Common

/-!
# Stateful programs that may fail

A program takes a state, returns a value or an error, and leaves a state in both cases. A triple
says what holds after a run from a state with the precondition, separately for a returned value and
for an error; the rules below follow the ways in which programs are put together.
-/

/-! ### Checks -/

section Checks

variable {ε α β : Type}

/-- Fails if the condition holds. -/
def refuseIf (c : Prop) [Decidable c] (e : ε) : Except ε Unit := if c then .error e else .ok ()

theorem refuseIf_ok {c : Prop} [Decidable c] {e : ε} {u : Unit} : refuseIf c e = .ok u ↔ ¬c := by
  by_cases hc : c <;> simp [refuseIf, hc]

theorem bind_ok {x : Except ε α} {f : α → Except ε β} {b : β} (h : x >>= f = .ok b) :
    ∃ a, x = .ok a ∧ f a = .ok b := by
  cases x with
  | error e => cases h
  | ok a => exact ⟨a, rfl, h⟩

theorem mapError_eq_ok {ε' : Type} {x : Except ε α} {f : ε → ε'} {a : α} :
    x.mapError f = .ok a ↔ x = .ok a := by
  cases x <;> simp [Except.mapError]

theorem toOption_eq_some {x : Except ε α} {a : α} (h : x.toOption = some a) : x = .ok a := by
  cases x with
  | error e => cases h
  | ok b => exact congrArg Except.ok (Option.some.inj h)

end Checks

/-! ### Programs -/

/-- A computation on a state, which returns or fails and leaves a state either way. -/
def Program (σ ε α : Type) : Type := σ → Except ε α × σ

namespace Program

variable {σ ε α β : Type}

/-- Returns a value and leaves the state. -/
protected def pure (a : α) : Program σ ε α := fun s => (.ok a, s)

/-- Goes on with the value, unless there is an error. -/
protected def bind (p : Program σ ε α) (f : α → Program σ ε β) : Program σ ε β := fun s =>
  match p s with
  | (.ok a, s') => f a s'
  | (.error e, s') => (.error e, s')

instance : Monad (Program σ ε) where
  pure := Program.pure
  bind := Program.bind

/-- Fails and leaves the state. -/
def fail (e : ε) : Program σ ε α := fun s => (.error e, s)

/-- Reads the state. -/
def gets (f : σ → α) : Program σ ε α := fun s => (.ok (f s), s)

/-- Changes the state. -/
def modify (f : σ → σ) : Program σ ε Unit := fun s => (.ok (), f s)

/-- Returns the error as a value. -/
def attempt (p : Program σ ε α) : Program σ ε (Except ε α) := fun s => (.ok (p s).1, (p s).2)

variable {f : α → Program σ ε β} {s s' : σ} {a : α} {e : ε} {q : Program σ ε α} {as : List α}

theorem bind_of_ok {p : Program σ ε α} (h : p s = (.ok a, s')) :
    (p >>= f) s = f a s' := by
  change Program.bind p f s = _
  rw [Program.bind, h]

theorem bind_of_error {p : Program σ ε α} (h : p s = (.error e, s')) :
    (p >>= f) s = (.error e, s') := by
  change Program.bind p f s = _
  rw [Program.bind, h]

theorem exists_of_bind_eq_ok {p : Program σ ε α} {b : β}
    (h : (p >>= f) s = (.ok b, s')) : ∃ a s₁, p s = (.ok a, s₁) ∧ f a s₁ = (.ok b, s') := by
  change Program.bind p f s = _ at h
  rw [Program.bind] at h
  rcases hp : p s with ⟨e | a, s₁⟩ <;> rw [hp] at h
  · cases h
  · exact ⟨a, s₁, rfl, h⟩

instance : LawfulMonad (Program σ ε) := LawfulMonad.mk' _
  (fun p => by
    funext s
    change Program.bind p Program.pure s = p s
    rw [Program.bind]
    rcases p s with ⟨_ | _, _⟩ <;> rfl)
  (fun _ _ => rfl)
  (fun p f g => by
    funext s
    change Program.bind (Program.bind p f) g s = Program.bind p (fun a => Program.bind (f a) g) s
    simp only [Program.bind]
    rcases p s with ⟨_ | _, _⟩ <;> rfl)

@[simp] theorem fail_bind : (fail e : Program σ ε α) >>= f = fail e := rfl

/-- Changes the error, if there is one. -/
def mapError (f : ε → ε) (p : Program σ ε α) : Program σ ε α := fun s => ((p s).1.mapError f, (p s).2)

theorem mapError_of_ok {f : ε → ε} {p : Program σ ε α} (h : p s = (.ok a, s')) :
    p.mapError f s = (.ok a, s') := by
  rw [mapError, h]
  rfl

theorem mapError_of_error {f : ε → ε} {p : Program σ ε α} (h : p s = (.error e, s')) :
    p.mapError f s = (.error (f e), s') := by
  rw [mapError, h]
  rfl

/-- Runs on a part of a larger state. -/
def zoom {τ : Type} (get : τ → σ) (set : σ → τ → τ) (p : Program σ ε α) : Program τ ε α := fun t =>
  ((p (get t)).1, set (p (get t)).2 t)

theorem zoom_of_eq {τ : Type} {get : τ → σ} {set : σ → τ → τ} {p : Program σ ε α} {t : τ}
    {r : Except ε α} (h : p (get t) = (r, s)) : p.zoom get set t = (r, set s t) := by
  rw [zoom, h]

/-! ### Triples -/

/-- From a state with `pre`, a returned value satisfies `post`, and an error leaves a state with `fails`. -/
def Triple (pre : σ → Prop) (p : Program σ ε α) (post : α → σ → Prop) (fails : σ → Prop) : Prop :=
  ∀ s, pre s → match p s with
    | (.ok a, s') => post a s'
    | (.error _, s') => fails s'

variable {pre pre' fails fails' inv : σ → Prop} {post post' : α → σ → Prop} {p : Program σ ε α}

theorem Triple.ok (h : Triple pre p post fails) (hs : pre s) (hp : p s = (.ok a, s')) :
    post a s' := by
  have hpost := h s hs
  rw [hp] at hpost
  exact hpost

theorem Triple.mono (h : Triple pre p post fails) (hpre : ∀ s, pre' s → pre s)
    (hpost : ∀ a s, post a s → post' a s) (hfails : ∀ s, fails s → fails' s) :
    Triple pre' p post' fails' := by
  grind [Triple]

theorem Triple.conseq (h : Triple pre p post fails) (hpost : ∀ a s, post a s → post' a s) :
    Triple pre p post' fails :=
  h.mono (fun _ hs => hs) hpost fun _ hs => hs

theorem triple_assume {φ : Prop} (hφ : ∀ s, pre s → φ) (h : φ → Triple pre p post fails) :
    Triple pre p post fails :=
  fun s hs => h (hφ s hs) s hs

theorem triple_pure (h : ∀ s, pre s → post a s) : Triple pre (pure a : Program σ ε α) post fails := h

theorem triple_fail (h : ∀ s, pre s → fails s) : Triple pre (fail e : Program σ ε α) post fails := h

theorem triple_gets {f : σ → α} (h : ∀ s, pre s → post (f s) s) :
    Triple pre (gets f : Program σ ε α) post fails := h

theorem triple_modify {f : σ → σ} {post : Unit → σ → Prop} (h : ∀ s, pre s → post () (f s)) :
    Triple pre (modify f : Program σ ε Unit) post fails := h

theorem triple_bind {mid : α → σ → Prop} {post : β → σ → Prop}
    (hp : Triple pre p mid fails) (hf : ∀ a, Triple (mid a) (f a) post fails) :
    Triple pre (p >>= f) post fails := by
  intro s hs
  have hrun := hp s hs
  change match Program.bind p f s with
    | (.ok a, s') => post a s'
    | (.error _, s') => fails s'
  unfold Program.bind
  rcases hstep : p s with ⟨e | a, s'⟩ <;> rw [hstep] at hrun
  · exact hrun
  · exact hf a s' hrun

theorem triple_attempt (h : Triple pre p post fails) :
    Triple pre (attempt p) (fun r s => match r with | .ok a => post a s | .error _ => fails s) fails' := by
  grind [attempt, Triple]

theorem triple_ite {c : Prop} [Decidable c]
    (hp : c → Triple pre p post fails) (hq : ¬ c → Triple pre q post fails) :
    Triple pre (if c then p else q) post fails := by
  by_cases hc : c
  · rw [if_pos hc]; exact hp hc
  · rw [if_neg hc]; exact hq hc

/-! ### Invariants

Most programs keep one invariant of the state, and what is said about the value they return does not
mention the state. -/

/-- The program keeps the invariant, and a value it returns satisfies `good`. -/
def Keeps (inv : σ → Prop) (p : Program σ ε α) (good : α → Prop) : Prop :=
  Triple inv p (fun a s => inv s ∧ good a) inv

variable {good good' : α → Prop}

theorem Keeps.state (h : Keeps inv p good) (hs : inv s) : inv (p s).2 := by
  grind [Keeps, Triple]

theorem Keeps.value (h : Keeps inv p good) (hs : inv s) (ha : (p s).1 = .ok a) : good a := by
  grind [Keeps, Triple]

theorem Keeps.mono (h : Keeps inv p good) (hgood : ∀ a, good a → good' a) : Keeps inv p good' :=
  Triple.conseq h fun a _ ha => ⟨ha.1, hgood a ha.2⟩

theorem keeps_pure (h : good a) : Keeps inv (pure a : Program σ ε α) good := fun _ hs => ⟨hs, h⟩

theorem keeps_fail : Keeps inv (fail e : Program σ ε α) good := fun _ hs => hs

theorem keeps_gets {f : σ → α} : Keeps inv (gets f : Program σ ε α) fun _ => True := fun _ hs => ⟨hs, trivial⟩

theorem keeps_modify {f : σ → σ} (h : ∀ s, inv s → inv (f s)) :
    Keeps inv (modify f : Program σ ε Unit) fun _ => True :=
  fun s hs => ⟨h s hs, trivial⟩

theorem keeps_bind {good' : β → Prop} (hp : Keeps inv p good)
    (hf : ∀ a, good a → Keeps inv (f a) good') : Keeps inv (p >>= f) good' :=
  triple_bind hp fun a s hs => hf a hs.2 s hs.1

theorem Keeps.triple_bind {post : β → σ → Prop} (hp : Keeps inv p good)
    (hf : ∀ a, good a → Triple inv (f a) post inv) : Triple inv (p >>= f) post inv :=
  Program.triple_bind hp fun a s hs => hf a hs.2 s hs.1

theorem keeps_attempt (h : Keeps inv p good) :
    Keeps inv (attempt p) fun r => ∀ a, r = .ok a → good a := by
  grind [triple_attempt, Keeps]

theorem keeps_ite {c : Prop} [Decidable c] (hp : c → Keeps inv p good)
    (hq : ¬ c → Keeps inv q good) : Keeps inv (if c then p else q) good :=
  triple_ite hp hq

/-- The results for all items, in order. -/
def collect {ι : Type} (f : ι → Program σ ε (List α)) : List ι → Program σ ε (List α)
  | [] => pure []
  | i :: is => do
    let here ← f i
    let rest ← collect f is
    pure (here ++ rest)

theorem keeps_collect {ι : Type} {f : ι → Program σ ε (List α)} {is : List ι}
    (h : ∀ i ∈ is, Keeps inv (f i) fun _ => True) : Keeps inv (collect f is) fun _ => True := by
  induction is with
  | nil => exact keeps_pure trivial
  | cons i is ih =>
    refine keeps_bind (h i (.head _)) fun here _ => ?_
    exact keeps_bind (ih fun j hj => h j (.tail _ hj)) fun rest _ => keeps_pure trivial

/-! ### Draining a source

A source is a program that is run again and again until it fails. -/

/-- Run again and again from `s`, the program returns `as` and then fails with `e` in the state `t`. -/
inductive Drains (p : Program σ ε α) : (s : σ) → (as : List α) → (e : ε) → (t : σ) → Prop
  | stop {s t : σ} {e : ε} (h : p s = (.error e, t)) : Drains p s [] e t
  | step {s s' t : σ} {a : α} {as : List α} {e : ε} (h : p s = (.ok a, s')) (rest : Drains p s' as e t) :
      Drains p s (a :: as) e t

/-- Run again and again from `s`, the program returns `as` and has come to the state `t`. -/
inductive Yields (p : Program σ ε α) : (s : σ) → (as : List α) → (t : σ) → Prop
  | refl {s : σ} : Yields p s [] s
  | step {s s' t : σ} {a : α} {as : List α} (h : p s = (.ok a, s')) (rest : Yields p s' as t) : Yields p s (a :: as) t

theorem Yields.drains {t t' : σ} (h : Yields p s as t) (hstop : p t = (.error e, t')) :
    Drains p s as e t' := by
  induction h with
  | refl => exact .stop hstop
  | step hp _ ih => exact .step hp (ih hstop)

theorem Drains.unique {t t' : σ} {as' : List α} {e' : ε} (h : Drains p s as e t)
    (h' : Drains p s as' e' t') : as = as' ∧ e = e' ∧ t = t' := by
  induction h generalizing as' e' with
  | stop hp =>
    cases h' with
    | stop hp' => simp_all
    | step hp' _ => simp_all
  | step hp _ ih =>
    cases h' with
    | stop hp' => simp_all
    | step hp' hrest => grind

/-! ### Calls that go on after an error -/

/-- The state after `k` calls, whatever they return. -/
def after (p : Program σ ε α) : (k : Nat) → σ → σ
  | 0, s => s
  | k + 1, s => after p k (p s).2

theorem after_keeps (h : ∀ s, inv s → inv (p s).2) (hs : inv s) (k : Nat) : inv (p.after k s) := by
  induction k generalizing s with
  | zero => exact hs
  | succ k ih => exact ih (h s hs)

/-- If each call that has not come to `stop` leaves less to do, some call comes to it. -/
theorem exists_after {stop : σ → Prop} (left : σ → Nat) (h : ∀ s, inv s → inv (p s).2)
    (hleft : ∀ s, inv s → stop s ∨ left (p s).2 < left s) (hs : inv s) : ∃ k, stop (p.after k s) := by
  induction hn : left s using Nat.strongRecOn generalizing s with
  | _ n ih =>
    obtain hstop | hlt := hleft s hs
    · exact ⟨0, hstop⟩
    · obtain ⟨k, hk⟩ := ih _ (hn ▸ hlt) (h s hs) rfl
      exact ⟨k + 1, hk⟩

end Program
