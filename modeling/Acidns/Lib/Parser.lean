import Acidns.Lib.Bytes

/-!
# Cursor parsers

Parsers that walk a message with a cursor. A parser sees the whole message, not only what is left of it, so a format may refer back to earlier bytes; it runs in an environment `ρ` and fails with an error `ε`.

Two judgements carry the proofs. `Reads` is total: the parser succeeds, with this value, and leaves the cursor there. `Ensures` is partial: whenever the parser succeeds, the value and the cursor satisfy a postcondition. Both compose along `bind`.
-/

structure Cursor where
  msg : List UInt8
  off : Nat
  deriving DecidableEq

/-- The result of a parser and the cursor it leaves, which is where the error arose when it fails. -/
def Parser (ρ ε α : Type) : Type := ρ → Cursor → Except ε α × Cursor

namespace Parser

open List

variable {end_ fuel n : Nat} {ε' : Type}

variable {ρ ε α β : Type} {env : ρ} {c : Cursor} {msg : List UInt8} {off off' off'' : Nat}

instance : Monad (Parser ρ ε) where
  pure a := fun _ c => (.ok a, c)
  bind p f := fun env c =>
    match p env c with
    | (.ok a, c') => f a env c'
    | (.error e, c') => (.error e, c')

/-- Fails where the cursor stands. -/
def fail (e : ε) : Parser ρ ε α := fun _ c => (.error e, c)

/-- Fails if the condition holds. -/
def failIf (cond : Prop) [Decidable cond] (e : ε) : Parser ρ ε Unit :=
  if cond then fail e else pure ()

/-- Where the cursor stands. -/
def offset : Parser ρ ε Nat := fun _ c => (.ok c.off, c)

/-- Moves the cursor. -/
def setOffset (off : Nat) : Parser ρ ε Unit := fun _ c => (.ok (), { c with off })

/-- The whole message. -/
def message : Parser ρ ε (List UInt8) := fun _ c => (.ok c.msg, c)

/-- The environment. -/
def environment : Parser ρ ε ρ := fun env c => (.ok env, c)

/-- A computation that does not look at the message. -/
def ofExcept (r : Except ε α) : Parser ρ ε α := fun _ c => (r, c)

/-- The next `n` bytes; `onShort` reports, for the offset, that fewer are left. -/
def take (n : Nat) (onShort : Nat → ε) : Parser ρ ε { bs : List UInt8 // bs.length = n } := fun _ c =>
  if h : c.off + n > c.msg.length then (.error (onShort c.off), c)
  else (.ok ⟨(c.msg.drop c.off).take n, by simp; omega⟩, { c with off := c.off + n })

/-- Run `step` until the cursor has reached `end_`; every step moves it, so `end_` minus the offset is fuel enough. -/
def loopUntil {σ : Type} (end_ : Nat) (step : σ → Parser ρ ε σ) : (fuel : Nat) → σ → Parser ρ ε σ
  | 0, s => pure s
  | fuel + 1, s => do
      let off ← offset
      if off < end_ then do
        let s' ← step s
        loopUntil end_ step fuel s'
      else pure s

/-- Run the step with the numbers `i`, `i + 1`, …, `n` times in all. -/
def iterate {σ : Type} (step : Nat → σ → Parser ρ ε σ) : (n i : Nat) → σ → Parser ρ ε σ
  | 0, _, s => pure s
  | n + 1, i, s => do
      let s' ← step i s
      iterate step n (i + 1) s'

/-- Turn the error of `p` into another one, which may name the offset where it arose. -/
def mapError {ε' : Type} (f : Nat → ε → ε') (p : Parser ρ ε α) : Parser ρ ε' α := fun env c =>
  match p env c with
  | (.ok a, c') => (.ok a, c')
  | (.error e, c') => (.error (f c'.off e), c')

/-! ### Total reads -/

/-- From `off` the parser returns `a` and stops at `off'`. -/
def Reads (p : Parser ρ ε α) (env : ρ) (msg : List UInt8) (off : Nat) (a : α) (off' : Nat) : Prop :=
  p env ⟨msg, off⟩ = (.ok a, ⟨msg, off'⟩)

theorem reads_pure (a : α) : (pure a : Parser ρ ε α).Reads env msg off a off := rfl

variable {a : α} {cond : Prop} {e : ε} {r : Except ε α} {post' : α → Cursor → Prop}

variable {p : Parser ρ ε α} {f : α → Parser ρ ε β} {σ ι κ : Type}

theorem Reads.bind_eq (hp : p.Reads env msg off a off') :
    (p >>= f) env ⟨msg, off⟩ = f a env ⟨msg, off'⟩ := by
  change (match p env ⟨msg, off⟩ with
    | (.ok a, c') => f a env c'
    | (.error e, c') => (.error e, c')) = _
  rw [hp]

theorem Reads.bind {b : β}
    (hp : p.Reads env msg off a off') (hf : (f a).Reads env msg off' b off'') :
    (p >>= f).Reads env msg off b off'' := hp.bind_eq.trans hf

theorem reads_failIf [Decidable cond] (hcond : ¬cond) :
    (failIf cond e : Parser ρ ε Unit).Reads env msg off () off := by
  rw [failIf, if_neg hcond]
  exact reads_pure ()

theorem reads_offset : (offset : Parser ρ ε Nat).Reads env msg off off off := rfl

theorem reads_setOffset : (setOffset off' : Parser ρ ε Unit).Reads env msg off () off' := rfl

theorem reads_message : (message : Parser ρ ε (List UInt8)).Reads env msg off msg off := rfl

theorem reads_environment : (environment : Parser ρ ε ρ).Reads env msg off env off := rfl

theorem reads_ofExcept (hr : r = .ok a) :
    (ofExcept r : Parser ρ ε α).Reads env msg off a off := by
  rw [hr]
  rfl

theorem reads_take {bs : List UInt8} {onShort : Nat → ε} (hbs : Octets.At msg off bs)
    (hlen : bs.length = n) (hend : off + n ≤ msg.length) :
    (take n onShort : Parser ρ ε _).Reads env msg off ⟨bs, hlen⟩ (off + n) := by
  subst hlen
  rw [Reads, take, dif_neg (Nat.not_lt.mpr hend)]
  simp only [hbs.take_drop]

/-- A loop whose steps read one item after the other: `after s x` is the state behind `x`, `bytesOf x` its encoding. -/
theorem reads_loopUntil {step : σ → Parser ρ ε σ} (after : σ → ι → σ)
    (bytesOf : ι → List UInt8) (items : List ι) {s : σ} (hat : Octets.At msg off (items.flatMap bytesOf))
    (hend : end_ = off + (items.flatMap bytesOf).length) (hfuel : end_ ≤ off + fuel)
    (hne : ∀ x ∈ items, bytesOf x ≠ [])
    (hstep : ∀ pre x post o, items = pre ++ x :: post → Octets.At msg o (bytesOf x) →
      o + (bytesOf x).length ≤ end_ → (step (pre.foldl after s)).Reads env msg o
        (after (pre.foldl after s) x) (o + (bytesOf x).length)) :
    (loopUntil end_ step fuel s).Reads env msg off (items.foldl after s) end_ := by
  induction items generalizing off fuel s with
  | nil =>
    subst hend
    cases fuel with
    | zero => exact reads_pure s
    | succ fuel =>
      refine .bind reads_offset ?_
      rw [if_neg (Nat.lt_irrefl _)]
      exact reads_pure s
  | cons x items ih =>
    rw [flatMap_cons] at hat hend
    rw [length_append] at hend
    obtain ⟨hx, hitems⟩ := Octets.at_append.mp hat
    have hpos := length_pos_iff.mpr (hne x (.head _))
    cases fuel with
    | zero => omega
    | succ fuel =>
      refine .bind reads_offset ?_
      rw [if_pos (by omega)]
      refine .bind (hstep [] x items off rfl hx (by omega)) ?_
      refine ih hitems (by omega) (by omega) (fun y hy => hne y (.tail _ hy)) ?_
      intro pre y post o hsplit
      exact hstep (x :: pre) y post o (by rw [hsplit, cons_append])

/-- One more item behind those that have been read. -/
def collect (p : Parser ρ ε α) (out : List α) : Parser ρ ε (List α) := do
  let x ← p
  pure (out ++ [x])

theorem foldl_concat (xs out : List α) : xs.foldl (fun out x => out ++ [x]) out = out ++ xs := by
  induction xs generalizing out with
  | nil => simp
  | cons x xs ih => rw [foldl_cons, ih, append_assoc, singleton_append]

theorem reads_loopUntil_collect (bytesOf : α → List UInt8)
    (items : List α) (hat : Octets.At msg off (items.flatMap bytesOf))
    (hend : end_ = off + (items.flatMap bytesOf).length) (hfuel : end_ ≤ off + fuel)
    (hne : ∀ x ∈ items, bytesOf x ≠ [])
    (hread : ∀ x ∈ items, ∀ o, Octets.At msg o (bytesOf x) → o + (bytesOf x).length ≤ end_ →
      p.Reads env msg o x (o + (bytesOf x).length)) :
    (loopUntil end_ (collect p) fuel []).Reads env msg off items end_ := by
  have hloop : (loopUntil end_ (collect p) fuel []).Reads env msg off
      (items.foldl (fun out x => out ++ [x]) []) end_ :=
    reads_loopUntil (fun out x => out ++ [x]) bytesOf items hat hend hfuel hne
      fun pre x post o hsplit hx hle => .bind (hread x (by simp [hsplit]) o hx hle) (reads_pure _)
  rwa [foldl_concat, nil_append] at hloop

theorem reads_loopUntil_ascending [LT κ] {end_ fuel : Nat}
    {step : Option κ × List α → Parser ρ ε (Option κ × List α)} (key : ι → κ) (out : ι → List α)
    (bytesOf : ι → List UInt8) (items : List ι) (hsorted : items.Pairwise (key · < key ·))
    (hat : Octets.At msg off (items.flatMap bytesOf)) (hend : end_ = off + (items.flatMap bytesOf).length)
    (hfuel : end_ ≤ off + fuel) (hne : ∀ x ∈ items, bytesOf x ≠ [])
    (hstep : ∀ x ∈ items, ∀ s o, (∀ last, s.1 = some last → last < key x) → Octets.At msg o (bytesOf x) →
      o + (bytesOf x).length ≤ end_ →
        (step s).Reads env msg o (some (key x), s.2 ++ out x) (o + (bytesOf x).length)) :
    ∃ last, (loopUntil end_ step fuel (none, [])).Reads env msg off (last, items.flatMap out) end_ := by
  let after (s : Option κ × List α) (x : ι) : Option κ × List α := (some (key x), s.2 ++ out x)
  have hout : ∀ (pre : List ι) s, (pre.foldl after s).2 = s.2 ++ pre.flatMap out := fun pre => by
    induction pre with
    | nil => simp
    | cons x pre ih => intro s; rw [foldl_cons, ih, flatMap_cons, append_assoc]
  have hkey : ∀ (pre : List ι) s last, (pre.foldl after s).1 = some last →
      s.1 = some last ∨ ∃ x ∈ pre, key x = last := fun pre => by
    induction pre with
    | nil => exact fun _ _ h => .inl h
    | cons x pre ih =>
      intro s last h
      rcases ih (after s x) last h with heq | ⟨y, hy, heq⟩
      · exact .inr ⟨x, .head _, Option.some.inj heq⟩
      · exact .inr ⟨y, .tail _ hy, heq⟩
  obtain ⟨last, hlast⟩ : ∃ last, items.foldl after (none, []) = (last, items.flatMap out) :=
    ⟨_, Prod.ext rfl (by rw [hout, nil_append])⟩
  refine ⟨last, ?_⟩
  rw [← hlast]
  refine reads_loopUntil after bytesOf items hat hend hfuel hne fun pre x post o hsplit hx hle =>
    hstep x (by simp [hsplit]) _ o (fun last hlast => ?_) hx hle
  rcases hkey pre _ last hlast with hnone | ⟨y, hy, rfl⟩
  · cases hnone
  · rw [hsplit] at hsorted
    exact (pairwise_append.mp hsorted).2.2 y hy x (.head _)

theorem reads_mapError {f : Nat → ε → ε'}
    (hp : p.Reads env msg off a off') : (mapError f p).Reads env msg off a off' := by
  rw [Reads, mapError, hp]

/-! ### Failures -/

/-- The parser fails from the cursor. -/
def Fails (p : Parser ρ ε α) (env : ρ) (c : Cursor) : Prop := ∃ e c', p env c = (.error e, c')

theorem Fails.bind (hp : p.Fails env c) :
    (p >>= f).Fails env c := by
  obtain ⟨e, c', he⟩ := hp
  refine ⟨e, c', ?_⟩
  change (match p env c with
    | (.ok a, c') => f a env c'
    | (.error e, c') => (.error e, c')) = _
  rw [he]

theorem Reads.bind_fails (hp : p.Reads env msg off a off') (hf : (f a).Fails env ⟨msg, off'⟩) :
    (p >>= f).Fails env ⟨msg, off⟩ := by
  obtain ⟨e, c', he⟩ := hf
  exact ⟨e, c', hp.bind_eq.trans he⟩

theorem fails_mapError {f : Nat → ε → ε'} (hp : p.Fails env c) :
    (mapError f p).Fails env c := by
  obtain ⟨e, c', he⟩ := hp
  exact ⟨f c'.off e, c', by rw [mapError, he]⟩

/-! ### Items one after the other -/

/-- The items stand one after the other; `R o x k o'` says that `x` stands from `o` to `o'` at the costs `k`. -/
inductive Sequence {ι κ : Type} (R : Nat → ι → List κ → Nat → Prop) : Nat → List ι → List κ → Nat → Prop
  | nil {off : Nat} : Sequence R off [] [] off
  | cons {off mid off' : Nat} {x : ι} {xs : List ι} {ks ks' : List κ} (hx : R off x ks mid)
      (hxs : Sequence R mid xs ks' off') : Sequence R off (x :: xs) (ks ++ ks') off'

theorem bind_assoc {γ : Type} (p : Parser ρ ε α) (f : α → Parser ρ ε β) (g : β → Parser ρ ε γ) :
    (p >>= f) >>= g = p >>= fun a => f a >>= g := by
  funext env c
  change (match (match p env c with
      | (.ok a, c') => f a env c'
      | (.error e, c') => (.error e, c')) with
    | (.ok b, c') => g b env c'
    | (.error e, c') => (.error e, c')) = match p env c with
      | (.ok a, c') => (f a >>= g) env c'
      | (.error e, c') => (.error e, c')
  rcases p env c with ⟨e | a, c'⟩ <;> rfl

section Iterate

variable {ι κ σ : Type} {R : Nat → ι → List κ → Nat → Prop} {affordable : κ → Prop}
  {step : Nat → σ → Parser ρ ε σ} {after : σ → ι → σ} {items : List ι} {costs : List κ}

theorem iterate_succ (step : Nat → σ → Parser ρ ε σ) (n i : Nat) (s : σ) :
    iterate step (n + 1) i s = iterate step n i s >>= step (i + n) := by
  induction n generalizing i s with
  | zero =>
    funext env c
    change (match step i s env c with
      | (.ok s', c') => (.ok s', c')
      | (.error e, c') => (.error e, c')) = step i s env c
    rcases step i s env c with ⟨e | s', c'⟩ <;> rfl
  | succ n ih => grind [iterate, bind_assoc]

theorem reads_iterate (hitems : Sequence R off items costs off')
    (hcosts : ∀ k ∈ costs, affordable k)
    (hstep : ∀ x ∈ items, ∀ i s o o' ks, R o x ks o' → (∀ k ∈ ks, affordable k) →
      (step i s).Reads env msg o (after s x) o') (i : Nat) (s : σ) :
    (iterate step items.length i s).Reads env msg off (items.foldl after s) off' := by
  induction hitems generalizing i s with
  | nil => exact reads_pure s
  | cons hx _ ih =>
    obtain ⟨hcost, hcosts⟩ := forall_mem_append.mp hcosts
    refine .bind (hstep _ (.head _) i s _ _ _ hx hcost) (ih hcosts ?_ (i + 1) _)
    exact fun y hy => hstep y (.tail _ hy)

theorem foldl_concat_map (f : ι → α) (xs : List ι) (out : List α) :
    xs.foldl (fun out x => out ++ [f x]) out = out ++ xs.map f := by
  induction xs generalizing out with
  | nil => simp
  | cons x xs ih => rw [foldl_cons, ih, map_cons, append_assoc, singleton_append]

theorem reads_iterate_collect {p : Nat → Parser ρ ε α} (f : ι → α) (hitems : Sequence R off items costs off')
    (hcosts : ∀ k ∈ costs, affordable k)
    (hread : ∀ x ∈ items, ∀ i o o' ks, R o x ks o' → (∀ k ∈ ks, affordable k) →
      (p i).Reads env msg o (f x) o') (i : Nat) :
    (iterate (fun i => collect (p i)) items.length i []).Reads env msg off (items.map f) off' := by
  have hloop : (iterate (fun i => collect (p i)) items.length i []).Reads env msg off
      (items.foldl (fun out x => out ++ [f x]) []) off' := by
    refine reads_iterate hitems hcosts ?_ i []
    intro x hx i s o o' ks hR hks
    exact .bind (hread x hx i o o' ks hR hks) (reads_pure _)
  rwa [foldl_concat_map, nil_append] at hloop

theorem fails_iterate (hitems : Sequence R off items costs off') (hcosts : ∃ k ∈ costs, ¬affordable k)
    (hstep : ∀ x ∈ items, ∀ i s o o' ks, R o x ks o' → (∀ k ∈ ks, affordable k) →
      (step i s).Reads env msg o (after s x) o')
    (hfail : ∀ x ∈ items, ∀ i s o o' ks, R o x ks o' → (∃ k ∈ ks, ¬affordable k) →
      (step i s).Fails env ⟨msg, o⟩) (i : Nat) (s : σ) :
    (iterate step items.length i s).Fails env ⟨msg, off⟩ := by
  induction hitems generalizing i s with
  | nil =>
    obtain ⟨k, hk, -⟩ := hcosts
    exact absurd hk not_mem_nil
  | @cons _ _ _ x _ ks ks' hx _ ih =>
    by_cases hcost : ∀ k ∈ ks, affordable k
    · have hlater : ∃ k ∈ ks', ¬affordable k := by
        obtain ⟨k, hk, hno⟩ := hcosts
        exact ⟨k, (mem_append.mp hk).resolve_left fun hk => hno (hcost k hk), hno⟩
      refine Reads.bind_fails (hstep _ (.head _) i s _ _ _ hx hcost) (ih hlater ?_ ?_ (i + 1) _)
      · exact fun y hy => hstep y (.tail _ hy)
      · exact fun y hy => hfail y (.tail _ hy)
    · simp only [not_forall] at hcost
      obtain ⟨k, hk, hno⟩ := hcost
      exact Fails.bind (hfail _ (.head _) i s _ _ _ hx ⟨k, hk, hno⟩)

theorem Sequence.imp {R' : Nat → ι → List κ → Nat → Prop} (hitems : Sequence R off items costs off')
    (hR : ∀ o x ks o', R o x ks o' → R' o x ks o') : Sequence R' off items costs off' := by
  induction hitems with
  | nil => exact .nil
  | cons hx _ ih => exact .cons (hR _ _ _ _ hx) ih

theorem Sequence.append {mid : Nat} {items' : List ι} {costs' : List κ} (h : Sequence R off items costs mid)
    (h' : Sequence R mid items' costs' off') : Sequence R off (items ++ items') (costs ++ costs') off' := by
  induction h with
  | nil => exact h'
  | cons hx _ ih =>
    rw [cons_append, append_assoc]
    exact .cons hx (ih h')

theorem Sequence.append_inv {items' : List ι} (h : Sequence R off (items ++ items') costs off') :
    ∃ mid ks ks', costs = ks ++ ks' ∧ Sequence R off items ks mid ∧ Sequence R mid items' ks' off' := by
  induction items generalizing off costs with
  | nil => exact ⟨off, [], costs, rfl, .nil, h⟩
  | cons x items ih =>
    cases h with
    | cons hx hxs =>
      obtain ⟨mid, ks, ks', rfl, hfront, hback⟩ := ih hxs
      exact ⟨mid, _, ks', (append_assoc _ _ _).symm, .cons hx hfront, hback⟩

theorem Sequence.le (hitems : Sequence R off items costs off') (hR : ∀ o x ks o', R o x ks o' → o ≤ o') :
    off ≤ off' := by
  induction hitems with
  | nil => exact Nat.le_refl _
  | cons hx _ ih => exact Nat.le_trans (hR _ _ _ _ hx) ih

theorem Sequence.length_le (hitems : Sequence R off items costs off')
    (hR : ∀ o x ks o', R o x ks o' → o < o') : off + items.length ≤ off' := by
  induction hitems with
  | nil => simp
  | cons hx _ ih =>
    have hlt := hR _ _ _ _ hx
    rw [length_cons]
    omega

end Iterate

/-! ### Postconditions -/

/-- What the parser returns satisfies the postcondition. -/
def Ensures (p : Parser ρ ε α) (env : ρ) (c : Cursor) (post : α → Cursor → Prop) : Prop :=
  ∀ a c', p env c = (.ok a, c') → post a c'

variable {post : α → Cursor → Prop}

theorem Ensures.and (hp : p.Ensures env c post)
    (hp' : p.Ensures env c post') : p.Ensures env c fun a c' => post a c' ∧ post' a c' :=
  fun a c' h => ⟨hp a c' h, hp' a c' h⟩

theorem Ensures.mono (hp : p.Ensures env c post)
    (himp : ∀ a c', post a c' → post' a c') : p.Ensures env c post' :=
  fun a c' h => himp a c' (hp a c' h)

theorem Ensures.pure (h : post a c) : (pure a : Parser ρ ε α).Ensures env c post := by
  rintro _ _ ⟨⟩
  exact h

theorem bind_eq_ok {b : β} {c'' : Cursor} :
    (p >>= f) env c = (.ok b, c'') ↔ ∃ a c', p env c = (.ok a, c') ∧ f a env c' = (.ok b, c'') := by
  change (match p env c with
    | (.ok a, c') => f a env c'
    | (.error e, c') => (.error e, c')) = _ ↔ _
  rcases hp : p env c with ⟨r, c'⟩
  cases r with
  | error e => simp
  | ok a =>
    constructor
    · intro h
      exact ⟨a, c', rfl, h⟩
    · rintro ⟨_, _, ⟨⟩, h⟩
      exact h

theorem Ensures.bind {post : β → Cursor → Prop}
    (h : p.Ensures env c fun a c' => (f a).Ensures env c' post) : (p >>= f).Ensures env c post := by
  intro b c'' hb
  obtain ⟨a, c', hp, hf⟩ := bind_eq_ok.mp hb
  exact h a c' hp b c'' hf

theorem Ensures.fail : (fail e : Parser ρ ε α).Ensures env c post := nofun

theorem Ensures.failIf [Decidable cond] {post : Unit → Cursor → Prop} (h : ¬cond → post () c) :
    (failIf cond e : Parser ρ ε Unit).Ensures env c post := by
  rw [Parser.failIf]
  split
  · exact .fail
  · next hcond => exact .pure (h hcond)

theorem Ensures.ofExcept (h : ∀ a, r = .ok a → post a c) :
    (ofExcept r : Parser ρ ε α).Ensures env c post := by
  grind [Ensures, ofExcept]

theorem Ensures.environment {post : ρ → Cursor → Prop} (h : post env c) :
    (environment : Parser ρ ε ρ).Ensures env c post := by
  rintro _ _ ⟨⟩
  exact h

theorem Ensures.offset {post : Nat → Cursor → Prop} (h : post c.off c) :
    (offset : Parser ρ ε Nat).Ensures env c post := by
  rintro _ _ ⟨⟩
  exact h

theorem Ensures.setOffset {post : Unit → Cursor → Prop} (h : post () ⟨c.msg, off⟩) :
    (setOffset off : Parser ρ ε Unit).Ensures env c post := by
  rintro _ _ ⟨⟩
  exact h

theorem Ensures.message {post : List UInt8 → Cursor → Prop} (h : post c.msg c) :
    (message : Parser ρ ε _).Ensures env c post := by
  rintro _ _ ⟨⟩
  exact h

theorem ensures_loopUntil {step : σ → Parser ρ ε σ}
    (inv : σ → Cursor → Prop) {s : σ} (hs : inv s c)
    (hstep : ∀ s c, inv s c → c.off < end_ → (step s).Ensures env c fun s' c' => inv s' c') :
    (loopUntil end_ step fuel s).Ensures env c inv := by
  induction fuel generalizing s c with
  | zero => exact .pure hs
  | succ fuel ih =>
    refine .bind (.offset ?_)
    split
    · rename_i hoff
      exact .bind ((hstep s c hs hoff).mono fun s' c' hs' => ih hs')
    · exact .pure hs

/-- A loop over items with increasing keys collects a list ordered by `R`, which relates values of different keys and of
one item. -/
theorem ensures_loopUntil_ascending [LT κ] (htrans : ∀ a b c : κ, a < b → b < c → a < c)
    {step : Option κ × List α → Parser ρ ε (Option κ × List α)} (keyOf : α → κ)
    (R : α → α → Prop) (hR : ∀ x y, keyOf x < keyOf y → R x y) (good : α → Prop)
    (hstep : ∀ s c, c.off < end_ → (step s).Ensures env c fun s' _ => ∃ k xs, s' = (some k, s.2 ++ xs) ∧
      (∀ last, s.1 = some last → last < k) ∧ (∀ x ∈ xs, keyOf x = k ∧ good x) ∧ xs.Pairwise R) :
    (loopUntil end_ step fuel (none, [])).Ensures env c fun s _ => s.2.Pairwise R ∧ ∀ x ∈ s.2, good x := by
  let inv (s : Option κ × List α) (_ : Cursor) : Prop :=
    (s.2.Pairwise R ∧ ∀ x ∈ s.2, good x) ∧
      ∀ x ∈ s.2, ∃ last, s.1 = some last ∧ (keyOf x = last ∨ keyOf x < last)
  refine Ensures.mono (ensures_loopUntil inv ⟨⟨.nil, nofun⟩, nofun⟩ ?_) fun s _ hs => hs.1
  rintro s c ⟨⟨hsorted, hgood⟩, hlast⟩ hoff
  refine (hstep s c hoff).mono ?_
  rintro _ _ ⟨k, xs, rfl, hk, hxs, hR'⟩
  have hbelow : ∀ x ∈ s.2, keyOf x < k := fun x hx => by
    obtain ⟨last, hs, rfl | hlt⟩ := hlast x hx
    · exact hk _ hs
    · exact htrans _ _ _ hlt (hk _ hs)
  refine ⟨⟨pairwise_append.mpr ⟨hsorted, hR', fun x hx y hy => hR x y ?_⟩, fun x hx => ?_⟩, fun x hx => ?_⟩
  · rw [(hxs y hy).1]
    exact hbelow x hx
  · exact (mem_append.mp hx).elim (hgood x) fun hx => (hxs x hx).2
  · exact ⟨k, rfl, (mem_append.mp hx).elim (fun hx => .inr (hbelow x hx)) fun hx => .inl (hxs x hx).1⟩

theorem ensures_iterate {step : Nat → σ → Parser ρ ε σ} (inv : σ → Prop) {i : Nat} {s : σ}
    (hs : inv s) (hstep : ∀ i s c, inv s → (step i s).Ensures env c fun s' _ => inv s') :
    (iterate step n i s).Ensures env c fun s' _ => inv s' := by
  induction n generalizing i s c with
  | zero => exact .pure hs
  | succ n ih => exact .bind ((hstep i s c hs).mono fun s' c' hs' => ih hs')

theorem ensures_mapError {f : Nat → ε → ε'} :
    (mapError f p).Ensures env c post ↔ p.Ensures env c post := by
  grind [mapError, Ensures]

theorem ensures_loopUntil_collect {good : α → Prop}
    (hp : ∀ c, c.off < end_ → p.Ensures env c fun x _ => good x) :
    (loopUntil end_ (collect p) fuel []).Ensures env c fun out _ => ∀ x ∈ out, good x := by
  refine ensures_loopUntil (fun out _ => ∀ x ∈ out, good x) (by simp) fun out c hout hoff => ?_
  refine .bind ((hp c hoff).mono fun x _ hx => .pure fun y hy => ?_)
  rcases mem_append.mp hy with hy | hy
  · exact hout y hy
  · rw [mem_singleton.mp hy]
    exact hx

theorem ensures_loopUntil_collect_ne_nil (hoff : c.off < end_)
    (hfuel : 0 < fuel) : (loopUntil end_ (collect p) fuel []).Ensures env c fun out _ => out ≠ [] := by
  obtain ⟨fuel, rfl⟩ := Nat.exists_eq_succ_of_ne_zero (Nat.ne_zero_of_lt hfuel)
  have hcollect : ∀ c out, (collect p out).Ensures env c fun out _ => out ≠ [] := fun c out =>
    .bind fun _ _ _ => .pure (by simp)
  refine .bind (.offset ?_)
  rw [if_pos hoff]
  refine .bind ((hcollect c []).mono fun out c' hout => ?_)
  exact ensures_loopUntil (fun out _ => out ≠ []) hout fun _ c _ _ => hcollect c _

/-! ### The message under the cursor -/

/-- The parser moves the cursor only. The instances follow the way in which parsers are put together. -/
class KeepsMessage (p : Parser ρ ε α) : Prop where
  msg_eq : ∀ env c, (p env c).2.msg = c.msg

section KeepsMessage

variable {σ : Type}

instance (a : α) : KeepsMessage (pure a : Parser ρ ε α) := ⟨fun _ _ => rfl⟩

instance (e : ε) : KeepsMessage (fail e : Parser ρ ε α) := ⟨fun _ _ => rfl⟩

instance : KeepsMessage (offset : Parser ρ ε Nat) := ⟨fun _ _ => rfl⟩

instance (off : Nat) : KeepsMessage (setOffset off : Parser ρ ε Unit) := ⟨fun _ _ => rfl⟩

instance : KeepsMessage (message : Parser ρ ε _) := ⟨fun _ _ => rfl⟩

instance : KeepsMessage (environment : Parser ρ ε ρ) := ⟨fun _ _ => rfl⟩

instance (r : Except ε α) : KeepsMessage (ofExcept r : Parser ρ ε α) := ⟨fun _ _ => rfl⟩

instance (n : Nat) (onShort : Nat → ε) : KeepsMessage (take n onShort : Parser ρ ε _) := by
  constructor
  intro env c
  rw [take]
  split <;> rfl

instance (cond : Prop) [Decidable cond] (p q : Parser ρ ε α) [KeepsMessage p] [KeepsMessage q] :
    KeepsMessage (if cond then p else q) := by
  split <;> infer_instance

instance (cond : Prop) [Decidable cond] (e : ε) : KeepsMessage (failIf cond e : Parser ρ ε Unit) := by
  unfold failIf
  infer_instance

instance (p : Parser ρ ε α) (f : α → Parser ρ ε β) [KeepsMessage p] [∀ a, KeepsMessage (f a)] :
    KeepsMessage (p >>= f) := by
  constructor
  intro env c
  have hp := KeepsMessage.msg_eq (p := p) env c
  change (match p env c with
    | (.ok a, c') => f a env c'
    | (.error e, c') => (.error e, c')).2.msg = _
  rcases h : p env c with ⟨_ | a, c'⟩
  · rw [h] at hp
    exact hp
  · rw [h] at hp
    exact (KeepsMessage.msg_eq (p := f a) env c').trans hp

instance {ε' : Type} (f : Nat → ε → ε') (p : Parser ρ ε α) [KeepsMessage p] : KeepsMessage (mapError f p) := by
  constructor
  intro env c
  have hp := KeepsMessage.msg_eq (p := p) env c
  rw [mapError]
  split
  · rename_i h
    rw [h] at hp
    exact hp
  · rename_i h
    rw [h] at hp
    exact hp

instance (end_ : Nat) (step : σ → Parser ρ ε σ) [∀ s, KeepsMessage (step s)] (fuel : Nat) (s : σ) :
    KeepsMessage (loopUntil end_ step fuel s) := by
  induction fuel generalizing s with
  | zero => exact inferInstanceAs (KeepsMessage (pure s))
  | succ fuel ih =>
    rw [loopUntil]
    infer_instance

instance (p : Parser ρ ε α) [KeepsMessage p] (out : List α) : KeepsMessage (collect p out) := by
  unfold collect
  infer_instance

theorem ensures_msg_eq (p : Parser ρ ε α) [KeepsMessage p] : p.Ensures env c fun _ c' => c'.msg = c.msg := by
  intro a c' h
  have hp := KeepsMessage.msg_eq (p := p) env c
  rwa [h] at hp

end KeepsMessage

/-! ### What a parser looks at -/

section Window

variable {p : Parser ρ ε α} {f : α → Parser ρ ε β} {side side' : Prop}

variable {b : β} {a : α} {e : ε} {r : Except ε α} {cond : Prop}

@[simp low] theorem reads_bind_iff [KeepsMessage p] : (p >>= f).Reads env msg off b off'' ↔
    ∃ a off', p.Reads env msg off a off' ∧ (f a).Reads env msg off' b off'' := by
  constructor
  · intro h
    obtain ⟨a, ⟨msg', off'⟩, hp, hf⟩ := bind_eq_ok.mp h
    obtain rfl : msg' = msg := ensures_msg_eq p a _ hp
    exact ⟨a, off', hp, hf⟩
  · rintro ⟨a, off', hp, hf⟩
    exact hp.bind hf

@[simp] theorem reads_pure_iff {a' : α} :
    (pure a : Parser ρ ε α).Reads env msg off a' off' ↔ a = a' ∧ off = off' := by
  simp [Reads, pure]

@[simp] theorem reads_fail_iff : ¬(fail e : Parser ρ ε α).Reads env msg off a off' := by
  simp [Reads, fail]

@[simp] theorem reads_offset_iff {a : Nat} :
    (offset : Parser ρ ε Nat).Reads env msg off a off' ↔ off = a ∧ off = off' := by
  simp [Reads, offset]

@[simp] theorem reads_setOffset_iff {u : Unit} :
    (setOffset n : Parser ρ ε Unit).Reads env msg off u off' ↔ n = off' := by
  simp [Reads, setOffset]

@[simp] theorem reads_message_iff {a : List UInt8} :
    (message : Parser ρ ε _).Reads env msg off a off' ↔ msg = a ∧ off = off' := by
  simp [Reads, message]

@[simp] theorem reads_environment_iff {a : ρ} :
    (environment : Parser ρ ε ρ).Reads env msg off a off' ↔ env = a ∧ off = off' := by
  simp [Reads, environment]

@[simp] theorem reads_ofExcept_iff :
    (ofExcept r : Parser ρ ε α).Reads env msg off a off' ↔ r = .ok a ∧ off = off' := by
  simp [Reads, ofExcept]

@[simp] theorem reads_failIf_iff [Decidable cond] {u : Unit} :
    (failIf cond e : Parser ρ ε Unit).Reads env msg off u off' ↔ ¬cond ∧ off = off' := by
  by_cases h : cond <;> simp [failIf, h, fail, Reads, pure]

@[simp] theorem reads_ite_iff [Decidable cond] {p q : Parser ρ ε α} :
    (if cond then p else q).Reads env msg off a off' ↔
      (cond → p.Reads env msg off a off') ∧ (¬cond → q.Reads env msg off a off') := by
  by_cases h : cond <;> simp [h]

/-! In a sequence the offset behind a read is put in at once, so that no offset is left to be found. -/

@[simp] theorem reads_offset_bind {f : Nat → Parser ρ ε β} {b : β} :
    (offset >>= f).Reads env msg off b off' ↔ (f off).Reads env msg off b off' := by
  simp [reads_bind_iff]

@[simp] theorem reads_failIf_bind [Decidable cond] {f : Unit → Parser ρ ε β} :
    (failIf cond e >>= f).Reads env msg off b off' ↔ ¬cond ∧ (f ()).Reads env msg off b off' := by
  grind [reads_bind_iff, reads_failIf_iff]

@[simp] theorem reads_ofExcept_bind :
    (ofExcept r >>= f).Reads env msg off b off' ↔ ∃ a, r = .ok a ∧ (f a).Reads env msg off b off' := by
  simp [reads_bind_iff]

theorem ensures_of_reads [KeepsMessage p]
    (h : ∀ a off', p.Reads env c.msg c.off a off' → post a ⟨c.msg, off'⟩) : p.Ensures env c post := by
  rintro a ⟨msg', off'⟩ hp
  obtain rfl : msg' = c.msg := ensures_msg_eq p a _ hp
  exact h a off' hp

theorem fails_of_reads [KeepsMessage p] (h : ∀ a off', ¬p.Reads env c.msg c.off a off') : p.Fails env c := by
  have hno : p.Ensures env c fun _ _ => False := ensures_of_reads h
  rcases hp : p env c with ⟨e | a, c'⟩
  · exact ⟨e, c', hp⟩
  · exact (hno a c' hp).elim

/-- In the message cut at `end_` the parser reads what it reads in the whole one, as long as it stays before the cut and
`side` holds. -/
structure Confined (env : ρ) (msg : List UInt8) (end_ off : Nat) (side : Prop) (p : Parser ρ ε α) : Prop where
  grow : ∀ a off', p.Reads env (msg.take end_) off a off' → p.Reads env msg off a off' ∧ side
  cut : ∀ a off', p.Reads env msg off a off' →
    off ≤ off' ∧ (off' ≤ end_ → side → p.Reads env (msg.take end_) off a off')

theorem Confined.imp (h : Confined env msg end_ off side p) (hside : side ↔ side') :
    Confined env msg end_ off side' p := by
  rwa [← propext hside]

theorem Confined.bind [KeepsMessage p] (hp : Confined env msg end_ off side p)
    (hf : ∀ a off', p.Reads env msg off a off' → Confined env msg end_ off' side' (f a)) :
    Confined env msg end_ off (side ∧ side') (p >>= f) where
  grow b off'' h := by
    obtain ⟨a, off', hread, hrest⟩ := reads_bind_iff.mp h
    obtain ⟨hread, hside⟩ := hp.grow a off' hread
    obtain ⟨hrest, hside'⟩ := (hf a off' hread).grow b off'' hrest
    exact ⟨hread.bind hrest, hside, hside'⟩
  cut b off'' h := by
    obtain ⟨a, off', hread, hrest⟩ := reads_bind_iff.mp h
    obtain ⟨hle, hcut⟩ := hp.cut a off' hread
    obtain ⟨hle', hcut'⟩ := (hf a off' hread).cut b off'' hrest
    refine ⟨Nat.le_trans hle hle', fun hend hsides => ?_⟩
    exact (hcut (Nat.le_trans hle' hend) hsides.1).bind (hcut' hend hsides.2)

/-- The parser looks at nothing behind the place where it ends. -/
class Local (p : Parser ρ ε α) : Prop extends KeepsMessage p where
  confined : ∀ env msg end_ off, Confined env msg end_ off True p

theorem Confined.after [Local p]
    (hf : ∀ a off', p.Reads env msg off a off' → Confined env msg end_ off' side (f a)) :
    Confined env msg end_ off side (p >>= f) :=
  ((Local.confined env msg end_ off).bind hf).imp (by rw [true_and])

theorem Confined.before [KeepsMessage p] [∀ a, Local (f a)] (hp : Confined env msg end_ off side p) :
    Confined env msg end_ off side (p >>= f) :=
  (hp.bind fun a _ _ => Local.confined env msg end_ _).imp (by rw [and_true])

theorem local_of_blind (r : ρ → Nat → Except ε α) (h : ∀ env c, p env c = (r env c.off, c)) : Local p where
  msg_eq env c := by rw [h]
  confined env msg end_ off := by
    refine ⟨fun a off' hread => ⟨?_, trivial⟩, fun a off' hread => ?_⟩
    · rw [Reads, h, Prod.mk.injEq, Cursor.mk.injEq] at hread ⊢
      exact ⟨hread.1, rfl, hread.2.2⟩
    · grind [Reads]

instance (a : α) : Local (pure a : Parser ρ ε α) := local_of_blind (fun _ _ => .ok a) fun _ _ => rfl

instance (e : ε) : Local (fail e : Parser ρ ε α) := local_of_blind (fun _ _ => .error e) fun _ _ => rfl

instance : Local (offset : Parser ρ ε Nat) := local_of_blind (fun _ off => .ok off) fun _ _ => rfl

instance (r : Except ε α) : Local (ofExcept r : Parser ρ ε α) := local_of_blind (fun _ _ => r) fun _ _ => rfl

@[simp] theorem reads_take_iff {onShort : Nat → ε} {b : { bs : List UInt8 // bs.length = n }} :
    (take n onShort : Parser ρ ε _).Reads env msg off b off' ↔
      Octets.At msg off b.val ∧ off + n ≤ msg.length ∧ off' = off + n := by
  grind [Reads, take, Octets.at_take_drop, reads_take]

instance (n : Nat) (onShort : Nat → ε) : Local (take n onShort : Parser ρ ε _) where
  confined env msg end_ off := by
    refine ⟨fun a off' hread => ⟨?_, trivial⟩, fun a off' hread => ?_⟩
    · obtain ⟨hat, hfit, hoff⟩ := reads_take_iff.mp hread
      rw [length_take] at hfit
      exact reads_take_iff.mpr ⟨hat.mono <| take_prefix _ _, by omega, hoff⟩
    · obtain ⟨hat, hfit, hoff⟩ := reads_take_iff.mp hread
      refine ⟨by omega, fun hend _ => reads_take_iff.mpr ⟨hat.take (by rw [a.property]; omega), ?_, hoff⟩⟩
      rw [length_take]
      omega

instance (cond : Prop) [Decidable cond] (p q : Parser ρ ε α) [Local p] [Local q] :
    Local (if cond then p else q) := by
  split <;> infer_instance

instance (cond : Prop) [Decidable cond] (e : ε) : Local (failIf cond e : Parser ρ ε Unit) := by
  unfold failIf
  infer_instance

instance (p : Parser ρ ε α) (f : α → Parser ρ ε β) [Local p] [∀ a, Local (f a)] : Local (p >>= f) where
  confined env msg end_ off :=
    ((Local.confined env msg end_ off).bind fun _ _ _ => Local.confined env msg end_ _).imp (and_self_iff)

instance {σ : Type} (end_ : Nat) (step : σ → Parser ρ ε σ) [∀ s, Local (step s)] (fuel : Nat) (s : σ) :
    Local (loopUntil end_ step fuel s) := by
  induction fuel generalizing s with
  | zero => exact inferInstanceAs (Local (pure s))
  | succ fuel ih =>
    rw [loopUntil]
    infer_instance

instance (p : Parser ρ ε α) [Local p] (out : List α) : Local (collect p out) := by
  unfold collect
  infer_instance

end Window

end Parser
