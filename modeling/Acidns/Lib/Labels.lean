import Acidns.Lib.Bytes
import Acidns.Lib.PrefixCode

/-!
# Length-prefixed label sequences with back references

A sequence of labels is written as each label behind a byte that holds its length, closed by a zero byte. A writer that shares suffixes replaces the rest of a sequence by a two-byte reference to an earlier offset at which that rest is already spelled. `Spells` is the meaning of the format: which labels stand at an offset, after how many references, and where the inline part ends.
-/

namespace Labels

open List

open Octets (At)

/-- A label has between one and 63 bytes. -/
def IsLabel (l : List UInt8) : Prop := 0 < l.length ∧ l.length < 64

instance (l : List UInt8) : Decidable (IsLabel l) := inferInstanceAs (Decidable (_ ∧ _))

/-- The wire form: each label behind its length, then a zero. -/
def encode : List (List UInt8) → List UInt8
  | [] => [0]
  | l :: ls => UInt8.ofNat l.length :: (l ++ encode ls)

/-- The wire form without the closing zero. -/
def body (ls : List (List UInt8)) : List UInt8 :=
  ls.flatMap fun l => UInt8.ofNat l.length :: l

/-- The labels of a wire form, as far as it is one. -/
def split (bs : List UInt8) : List (List UInt8) :=
  go bs.length bs
where
  go : Nat → List UInt8 → List (List UInt8)
    | 0, _ => []
    | _ + 1, [] => []
    | fuel + 1, b :: rest =>
      if b = 0 then [] else rest.take b.toNat :: go fuel (rest.drop b.toNat)

variable {l : List UInt8} {ls ls' : List (List UInt8)}

theorem IsLabel.toNat_length (h : IsLabel l) : (UInt8.ofNat l.length).toNat = l.length := by
  have hlt := h.2
  rw [UInt8.toNat_ofNat']
  omega

theorem IsLabel.ofNat_length_ne_zero (h : IsLabel l) : UInt8.ofNat l.length ≠ 0 := by
  intro hzero
  have hlen := h.toNat_length
  rw [hzero] at hlen
  exact Nat.ne_of_lt h.1 hlen

theorem encode_eq_body (ls : List (List UInt8)) : encode ls = body ls ++ [0] := by
  induction ls with
  | nil => rfl
  | cons l ls ih => simp [encode, ih, body]

theorem body_concat (ls : List (List UInt8)) (l : List UInt8) :
    body (ls ++ [l]) = body ls ++ UInt8.ofNat l.length :: l := by
  simp [body]

theorem body_cons (l : List UInt8) (ls : List (List UInt8)) :
    body (l :: ls) = (UInt8.ofNat l.length :: l) ++ body ls := rfl

theorem length_le_length_body (ls : List (List UInt8)) : ls.length ≤ (body ls).length := by
  induction ls with
  | nil => simp
  | cons l ls ih =>
    rw [body_cons, length_append, length_cons, length_cons]
    omega

theorem encode_ne_nil (ls : List (List UInt8)) : encode ls ≠ [] := by
  cases ls <;> simp [encode]

theorem length_encode_cons (l : List UInt8) (ls : List (List UInt8)) :
    (encode (l :: ls)).length = 1 + l.length + (encode ls).length := by
  simp only [encode, length_cons, length_append]
  omega

theorem length_lt_length_encode (ls : List (List UInt8)) : ls.length < (encode ls).length := by
  induction ls with
  | nil => simp [encode]
  | cons l ls ih =>
    rw [length_encode_cons, length_cons]
    omega

section

variable (hls : ∀ l ∈ ls, IsLabel l)

include hls

private theorem split_go_encode {fuel : Nat} (hfuel : ls.length < fuel)
    (rest : List UInt8) : split.go fuel (encode ls ++ rest) = ls := by
  induction ls generalizing fuel with
  | nil =>
    cases fuel with
    | zero => omega
    | succ fuel => simp [encode, split.go]
  | cons l ls ih =>
    cases fuel with
    | zero => omega
    | succ fuel =>
      have hl := hls l (.head _)
      rw [encode, cons_append, append_assoc, split.go,
        if_neg hl.ofNat_length_ne_zero, hl.toNat_length, take_left, drop_left,
        ih (fun k hk => hls k (.tail _ hk)) (by simpa using hfuel)]

theorem split_encode_append (rest : List UInt8) : split (encode ls ++ rest) = ls := by
  refine split_go_encode hls ?_ rest
  have hlen := length_lt_length_encode ls
  rw [length_append]
  omega

theorem split_encode : split (encode ls) = ls := by
  simpa using split_encode_append hls []

theorem encode_injective (hls' : ∀ l ∈ ls', IsLabel l) (h : encode ls = encode ls') : ls = ls' := by
  rw [← split_encode hls, ← split_encode hls', h]

end

theorem length_encode_lt_cons (l : List UInt8) (ls : List (List UInt8)) :
    (encode ls).length < (encode (l :: ls)).length := by
  rw [length_encode_cons]
  omega

theorem drop_encode_cons {l : List UInt8} {ls : List (List UInt8)} (hl : IsLabel l) :
    (encode (l :: ls)).drop (1 + ((encode (l :: ls)).headD 0).toNat) = encode ls := by
  rw [encode, headD_cons, hl.toNat_length, Nat.add_comm, drop_succ_cons, drop_left]

/-! ### Back references -/

/-- A reference is two bytes with the two top bits set; the other fourteen hold the target. -/
def reference (target : Nat) : List UInt8 :=
  [0xc0 ||| UInt8.ofNat (target / 256), UInt8.ofNat target]

theorem and_c0_eq_zero (b : UInt8) : b &&& 0xc0 = 0 ↔ b.toNat < 64 :=
  forall_byte (P := fun b => b &&& 0xc0 = 0 ↔ b.toNat < 64) (by decide +kernel) b

theorem and_c0_eq_c0 (b : UInt8) : b &&& 0xc0 = 0xc0 ↔ 192 ≤ b.toNat :=
  forall_byte (P := fun b => b &&& 0xc0 = 0xc0 ↔ 192 ≤ b.toNat) (by decide +kernel) b

theorem toNat_and_3f (b : UInt8) : (b &&& 0x3f).toNat = b.toNat % 64 := by
  exact Nat.and_two_pow_sub_one_eq_mod b.toNat 6

theorem toNat_reference_head {k : Nat} (hk : k < 64) : (0xc0 ||| UInt8.ofNat k).toNat = 192 + k := by
  have hall : ∀ n : Fin 64, (0xc0 ||| UInt8.ofNat n).toNat = 192 + n.val := by decide +kernel
  exact hall ⟨k, hk⟩

theorem target_lt (b lo : UInt8) : (b &&& 0x3f).toNat * 256 + lo.toNat < 2 ^ 14 := by
  have hlo := lo.toNat_lt
  rw [toNat_and_3f]
  omega

theorem reference_target {b lo : UInt8} (hb : b &&& 0xc0 = 0xc0) :
    reference ((b &&& 0x3f).toNat * 256 + lo.toNat) = [b, lo] := by
  have hlo := lo.toNat_lt
  have hlt := b.toNat_lt
  have hge := (and_c0_eq_c0 b).mp hb
  have hdiv : ((b &&& 0x3f).toNat * 256 + lo.toNat) / 256 = b.toNat % 64 := by
    rw [toNat_and_3f]
    omega
  have hhead : 0xc0 ||| UInt8.ofNat (b.toNat % 64) = b := by
    apply UInt8.toNat_inj.mp
    rw [toNat_reference_head (by omega)]
    omega
  have htail : UInt8.ofNat ((b &&& 0x3f).toNat * 256 + lo.toNat) = lo := by
    apply UInt8.toNat_inj.mp
    have hmod : (UInt8.ofNat ((b &&& 0x3f).toNat * 256 + lo.toNat)).toNat =
      ((b &&& 0x3f).toNat * 256 + lo.toNat) % 256 := UInt8.toNat_ofNat'
    omega
  rw [reference, hdiv, hhead, htail]

theorem target_reference {target : Nat} (hfit : target < 2 ^ 14) :
    ((0xc0 ||| UInt8.ofNat (target / 256)) &&& 0x3f).toNat * 256 + (UInt8.ofNat target).toNat = target := by
  grind [UInt8.toNat_ofNat', toNat_and_3f, toNat_reference_head]

theorem reference_injective {target target' : Nat} (hfit : target < 2 ^ 14) (hfit' : target' < 2 ^ 14)
    (h : reference target = reference target') : target = target' := by
  grind [target_reference, reference]

theorem IsLabel.and_c0 {l : List UInt8} (h : IsLabel l) : UInt8.ofNat l.length &&& 0xc0 = 0 := by
  rw [and_c0_eq_zero, h.toNat_length]
  exact h.2

/-- The labels are spelled from `off` on, after following `hops` references; the part at `off` itself ends at `next`. -/
inductive Spells (msg : List UInt8) : (off : Nat) → List (List UInt8) → (hops next : Nat) → Prop
  | root {off : Nat} (hzero : At msg off [0]) : Spells msg off [] 0 (off + 1)
  | label {off hops next : Nat} {l : List UInt8} {ls : List (List UInt8)} (hl : IsLabel l)
      (hbytes : At msg off (UInt8.ofNat l.length :: l))
      (hrest : Spells msg (off + 1 + l.length) ls hops next) : Spells msg off (l :: ls) hops next
  | pointer {off target hops next : Nat} {ls : List (List UInt8)} (hback : target < off)
      (hfit : target < 2 ^ 14) (hbytes : At msg off (reference target))
      (htarget : Spells msg target ls hops next) : Spells msg off ls (hops + 1) (off + 2)

variable {msg msg' : List UInt8} {off hops next : Nat}

section

variable (h : Spells msg off ls hops next)

include h

theorem Spells.mono (hmsg : msg <+: msg') : Spells msg' off ls hops next := by
  induction h with
  | root hzero => exact .root (hzero.mono hmsg)
  | label hl hbytes _ ih => exact .label hl (hbytes.mono hmsg) ih
  | pointer hback hfit hbytes _ ih => exact .pointer hback hfit (hbytes.mono hmsg) ih

theorem Spells.isLabel : ∀ l ∈ ls, IsLabel l := by
  induction h with
  | root => simp
  | label hl _ _ ih => simpa [hl] using ih
  | pointer _ _ _ _ ih => exact ih

theorem Spells.lt_next : off < next := by
  induction h with
  | root => omega
  | label _ _ _ ih => omega
  | pointer => omega

theorem Spells.next_le : next ≤ msg.length := by
  induction h with
  | root hzero => simpa using hzero.end_le (by simp)
  | label _ _ _ ih => exact ih
  | pointer _ _ hbytes _ _ => simpa [reference] using hbytes.end_le (by simp [reference])

end

private theorem length_of_head {b : UInt8} {bs l : List UInt8} (hl : IsLabel l)
    (hbytes : At msg off (UInt8.ofNat l.length :: l)) (hb : At msg off (b :: bs)) : b.toNat = l.length := by
  rw [hb.head_unique hbytes, hl.toNat_length]

private theorem le_head_of_reference {target : Nat} {b : UInt8} {bs : List UInt8} (hfit : target < 2 ^ 14)
    (hbytes : At msg off (reference target)) (hb : At msg off (b :: bs)) : 192 ≤ b.toNat := by
  rw [hb.head_unique hbytes, toNat_reference_head (by omega)]
  omega

theorem Spells.unique {ls' : List (List UInt8)} {hops' next' : Nat} (h : Spells msg off ls hops next)
    (h' : Spells msg off ls' hops' next') : ls = ls' := by
  induction h generalizing ls' hops' next' with
  | root hzero =>
    cases h' with
    | root => rfl
    | label hl hbytes => exact absurd (length_of_head hl hbytes hzero) (Nat.ne_of_lt hl.1)
    | pointer _ hfit hbytes => exact absurd (le_head_of_reference hfit hbytes hzero) (by decide)
  | label hl hbytes _ ih =>
    cases h' with
    | root hzero => exact absurd (length_of_head hl hbytes hzero) (Nat.ne_of_lt hl.1)
    | label hl' hbytes' hrest' =>
      have hlen := length_of_head hl hbytes hbytes'
      rw [hl'.toNat_length] at hlen
      obtain rfl := (Octets.at_cons.mp hbytes').2.unique (Octets.at_cons.mp hbytes).2 hlen
      rw [ih hrest']
    | pointer _ hfit hbytes' =>
      have hlow := hl.2
      have hhigh := le_head_of_reference hfit hbytes' hbytes
      rw [hl.toNat_length] at hhigh
      omega
  | pointer _ hfit hbytes _ ih =>
    cases h' with
    | root hzero => exact absurd (le_head_of_reference hfit hbytes hzero) (by decide)
    | label hl hbytes' =>
      have hlow := hl.2
      have hhigh := le_head_of_reference hfit hbytes hbytes'
      rw [hl.toNat_length] at hhigh
      omega
    | pointer _ hfit' hbytes' htarget' =>
      obtain rfl := reference_injective hfit' hfit (hbytes'.unique hbytes rfl)
      exact ih htarget'

theorem spells_encode (hls : ∀ l ∈ ls, IsLabel l) (h : At msg off (encode ls)) :
    Spells msg off ls 0 (off + (encode ls).length) := by
  induction ls generalizing off with
  | nil => exact .root h
  | cons l ls ih =>
    rw [encode, ← cons_append, Octets.at_append, length_cons] at h
    have hrest := ih (fun k hk => hls k (.tail _ hk)) h.2
    rw [length_encode_cons]
    refine .label (hls l (.head _)) h.1 ?_
    convert hrest using 1 <;> omega

theorem Spells.inline (h : Spells msg off ls hops next) :
    (hops = 0 ∧ At msg off (encode ls) ∧ next = off + (encode ls).length) ∨
      0 < hops ∧ ∃ front target, (∀ l ∈ front, IsLabel l) ∧ target < 2 ^ 14 ∧ target < off + (body front).length ∧
        At msg off (body front ++ reference target) ∧ next = off + (body front ++ reference target).length := by
  induction h with
  | root hzero => exact .inl ⟨rfl, hzero, rfl⟩
  | @label off hops next l ls hl hbytes _ ih =>
    have hlen : (UInt8.ofNat l.length :: l).length = 1 + l.length := by rw [length_cons, Nat.add_comm]
    rcases ih with ⟨rfl, hat, rfl⟩ | ⟨hpos, front, target, hfront, hfit, hback, hat, rfl⟩
    · grind [encode, Octets.at_append]
    · refine .inr ⟨hpos, l :: front, target, by simpa [hl] using hfront, hfit, ?_, ?_, ?_⟩
      · rw [body_cons, length_append, hlen]
        omega
      · rw [body_cons, append_assoc, Octets.at_append, hlen, ← Nat.add_assoc]
        exact ⟨hbytes, hat⟩
      · rw [body_cons, append_assoc, @length_append _ (UInt8.ofNat l.length :: l), hlen]
        omega
  | pointer hback hfit hbytes _ _ => exact .inr ⟨Nat.succ_pos _, [], _, by simp, hfit, hback, hbytes, rfl⟩

/-! ### The inline part -/

/-- Labels up to the closing zero or the first reference. -/
inductive Inline : List UInt8 → Prop
  | root : Inline [0]
  | label {l w : List UInt8} (hl : IsLabel l) (hrest : Inline w) : Inline ((UInt8.ofNat l.length :: l) ++ w)
  | pointer {target : Nat} (hfit : target < 2 ^ 14) : Inline (reference target)

theorem Spells.exists_inline (h : Spells msg off ls hops next) :
    ∃ w, Inline w ∧ At msg off w ∧ next = off + w.length := by
  induction h with
  | root hzero => exact ⟨[0], .root, hzero, rfl⟩
  | @label off hops next l ls hl hbytes _ ih =>
    obtain ⟨w, hw, hat, hnext⟩ := ih
    refine ⟨_, .label hl hw, Octets.at_append.mpr ⟨hbytes, ?_⟩, ?_⟩
    · rwa [length_cons, Nat.add_comm l.length, ← Nat.add_assoc]
    · rw [length_append, length_cons, hnext]
      omega
  | pointer _ hfit hbytes _ _ => exact ⟨_, .pointer hfit, hbytes, rfl⟩

/-- No name on the wire is a proper beginning of another. -/
theorem prefixFree_inline : PrefixCode.PrefixFree {w | Inline w} := by
  have hhead : ∀ {target : Nat}, target < 2 ^ 14 → 192 ≤ (0xc0 ||| UInt8.ofNat (target / 256)).toNat := by
    intro target hfit
    rw [toNat_reference_head (by omega)]
    omega
  have hfar : ∀ {l : List UInt8} {target : Nat}, IsLabel l → target < 2 ^ 14 →
      UInt8.ofNat l.length ≠ 0xc0 ||| UInt8.ofNat (target / 256) := by
    intro l target hl hfit heq
    have hlow := hl.2
    have hhigh := hhead hfit
    rw [← heq, hl.toNat_length] at hhigh
    omega
  intro a b s t (ha : Inline a) (hb : Inline b) h
  induction ha generalizing b with
  | root =>
    cases hb with
    | root => rfl
    | label hl => exact absurd (List.cons.inj h).1.symm hl.ofNat_length_ne_zero
    | pointer hfit =>
      have hhigh := hhead hfit
      rw [← (List.cons.inj h).1] at hhigh
      exact absurd hhigh (by decide)
  | @label l w hl _ ih =>
    cases hb with
    | root => exact absurd (List.cons.inj h).1 hl.ofNat_length_ne_zero
    | @label l' w' hl' hrest' =>
      rw [append_assoc, append_assoc] at h
      have hlen : l.length = l'.length := by
        rw [← hl.toNat_length, ← hl'.toNat_length, (List.cons.inj h).1]
      obtain ⟨hlabel, hrest⟩ := append_inj h (by rw [length_cons, length_cons, hlen])
      rw [hlabel, ih hrest' hrest]
    | pointer hfit => exact absurd (List.cons.inj h).1 (hfar hl hfit)
  | pointer hfit =>
    cases hb with
    | root =>
      have hhigh := hhead hfit
      rw [(List.cons.inj h).1] at hhigh
      exact absurd hhigh (by decide)
    | label hl => exact absurd (List.cons.inj h).1.symm (hfar hl hfit)
    | pointer => exact (append_inj h rfl).1

end Labels
