import Acidns.Wire.Message
import Mathlib.Algebra.Order.Group.Multiset
import Mathlib.Data.Multiset.Range
import Mathlib.Tactic.Abel

/-!
# A connection of the stream server

`serveConn` and `WriteMsg` of `internal/streamframe/server.go`: one reader and the dispatchers it starts share a
connection, its write mutex, a semaphore and the pool of read buffers. A dispatcher is named by the buffer it was
given. Deadlines appear as reads and writes that may fail at any time.
-/

namespace Acidns.Streamframe

open Octets (bigEndian)

/-- The bounds of a `LoopConfig`; one that is not positive is off. -/
structure LoopConfig where
  maxQueriesPerConn : Int
  maxMessageSize : Int
  maxInflightPerConn : Int
  deriving DecidableEq

inductive Reader where
  | waiting
  | body (buf : Nat)
  /-- The message is read; a slot is next. -/
  | slot (buf : Nat)
  /-- Behind the loop, in `connWg.Wait`. -/
  | draining
  | closed
  deriving DecidableEq

def Reader.held : Reader → Multiset Nat
  | .body buf | .slot buf => {buf}
  | _ => 0

def Reader.reading : Reader → Nat
  | .body _ => 1
  | _ => 0

def Reader.read : Reader → Nat
  | .slot _ => 1
  | _ => 0

structure Writer where
  dispatcher : Nat
  body : Bytes
  headed : Bool
  deriving DecidableEq

/-- What the underlying connection answers to a `Write`. -/
structure Write where
  /-- How many bytes it took. -/
  taken : Nat
  /-- How many bytes of the frame are out then. -/
  out : Nat
  failed : Bool
  deriving DecidableEq

/-- One connection of the server. -/
structure Conn where
  reader : Reader
  queries : Nat
  running : Multiset Nat
  /-- The slots of `perConnSem` that are taken. -/
  slots : Nat
  writer : Option Writer
  /-- The free buffers, those of other connections (or lost to the collector), and how many were made. -/
  pool : Multiset Nat
  others : Multiset Nat
  made : Nat
  wire : Bytes
  /-- The packed messages that `WriteMsg` began to write; history only. -/
  begun : List Bytes
  /-- The answers of the underlying connection so far; history only. -/
  writes : List Write

/-- The two writes of `WriteMsg` in one text. -/
def frame (body : Bytes) : Bytes := bigEndian 2 body.length ++ body

namespace Conn

def held (s : Conn) : Multiset Nat := s.reader.held + s.running + s.pool + s.others

/-- `pool.Get`: a free buffer, or a new one. -/
inductive Get (s : Conn) : Nat → Conn → Prop
  | free {buf : Nat} (h : buf ∈ s.pool) : Get s buf { s with pool := s.pool.erase buf }
  | new : Get s s.made { s with made := s.made + 1 }

/-- What reader, dispatchers and writer can do next. -/
inductive Step (cfg : LoopConfig) (s : Conn) : Conn → Prop
  /-- The end of the stream, a deadline, or a bound on the connection. -/
  | stop (h : s.reader = .waiting) : Step cfg s { s with reader := .draining }
  | tooLong (n : UInt16) (h : s.reader = .waiting) (hsize : 0 < cfg.maxMessageSize ∧ cfg.maxMessageSize < n.toNat) :
      Step cfg s { s with reader := .draining }
  | length {s' : Conn} {buf : Nat} (n : UInt16) (h : s.reader = .waiting)
      (hqueries : ¬(0 < cfg.maxQueriesPerConn ∧ cfg.maxQueriesPerConn ≤ s.queries))
      (hsize : ¬(0 < cfg.maxMessageSize ∧ cfg.maxMessageSize < n.toNat)) (hget : s.Get buf s') :
      Step cfg s { s' with reader := .body buf }
  | truncated {buf : Nat} (h : s.reader = .body buf) : Step cfg s { s with reader := .draining, pool := buf ::ₘ s.pool }
  | message {buf : Nat} (h : s.reader = .body buf) :
      Step cfg s { s with reader := .slot buf, queries := s.queries + 1 }
  | acquire {buf : Nat} (h : s.reader = .slot buf) (hcap : 0 < cfg.maxInflightPerConn)
      (hfree : (s.slots : Int) < cfg.maxInflightPerConn) :
      Step cfg s { s with reader := .waiting, running := buf ::ₘ s.running, slots := s.slots + 1 }
  | cancelled {buf : Nat} (h : s.reader = .slot buf) (hcap : 0 < cfg.maxInflightPerConn) :
      Step cfg s { s with reader := .draining, pool := buf ::ₘ s.pool }
  | unbounded {buf : Nat} (h : s.reader = .slot buf) (hcap : ¬0 < cfg.maxInflightPerConn) :
      Step cfg s { s with reader := .waiting, running := buf ::ₘ s.running }
  /-- A message that does not pack, or not into a frame, never gets to the mutex. -/
  | lock {buf : Nat} {body : Bytes} (m : Message) (h : buf ∈ s.running) (hfree : s.writer = none)
      (hpack : m.pack = .ok body) (hlength : body.length ≤ 0xffff) :
      Step cfg s { s with writer := some ⟨buf, body, false⟩ }
  | wroteHeader {w : Writer} (h : s.writer = some w) (hheaded : w.headed = false) :
      Step cfg s { s with writer := some { w with headed := true }, wire := s.wire ++ bigEndian 2 w.body.length,
                          begun := s.begun ++ [w.body], writes := s.writes ++ [⟨2, 2, false⟩] }
  /-- The error of a write comes with the number of bytes that were taken. -/
  | failedHeader {w : Writer} (k : Nat) (h : s.writer = some w) (hheaded : w.headed = false) (hk : k ≤ 2) :
      Step cfg s { s with writer := none, wire := s.wire ++ (bigEndian 2 w.body.length).take k,
                          begun := s.begun ++ [w.body], writes := s.writes ++ [⟨k, k, true⟩] }
  | wroteBody {w : Writer} (h : s.writer = some w) (hheaded : w.headed = true) :
      Step cfg s { s with writer := none, wire := s.wire ++ w.body,
                          writes := s.writes ++ [⟨w.body.length, 2 + w.body.length, false⟩] }
  | failedBody {w : Writer} (k : Nat) (h : s.writer = some w) (hheaded : w.headed = true) (hk : k ≤ w.body.length) :
      Step cfg s { s with writer := none, wire := s.wire ++ w.body.take k, writes := s.writes ++ [⟨k, 2 + k, true⟩] }
  | finish {buf : Nat} (h : buf ∈ s.running) (hwriter : ∀ w, s.writer = some w → w.dispatcher ≠ buf) :
      Step cfg s { s with running := s.running.erase buf, pool := buf ::ₘ s.pool,
                          slots := if 0 < cfg.maxInflightPerConn then s.slots - 1 else s.slots }
  | close (h : s.reader = .draining) (hrunning : s.running = 0) : Step cfg s { s with reader := .closed }
  | othersGet {s' : Conn} {buf : Nat} (hget : s.Get buf s') : Step cfg s { s' with others := buf ::ₘ s'.others }
  | othersPut {buf : Nat} (h : buf ∈ s.others) :
      Step cfg s { s with others := s.others.erase buf, pool := buf ::ₘ s.pool }

structure Initial (s : Conn) : Prop where
  reader : s.reader = .waiting
  queries : s.queries = 0
  running : s.running = 0
  slots : s.slots = 0
  writer : s.writer = none
  buffers : s.pool + s.others = Multiset.range s.made
  wire : s.wire = []
  begun : s.begun = []
  writes : s.writes = []

def Reaches (cfg : LoopConfig) : Conn → Conn → Prop := Relation.ReflTransGen (Step cfg)

/-! ### What holds between the steps -/

section Invariant

variable {cfg : LoopConfig} {s s' : Conn}

structure Tidy (cfg : LoopConfig) (s : Conn) : Prop where
  /-- Every buffer is in one place: free, with the reader, with one dispatcher or with another connection. -/
  buffers : s.held = Multiset.range s.made
  /-- Each dispatcher that runs has a slot, and nobody else has one. -/
  slots : s.slots = if 0 < cfg.maxInflightPerConn then s.running.card else 0
  closed : s.reader = .closed → s.running = 0

theorem Get.held {s' : Conn} {buf : Nat} (h : s.Get buf s') :
    s'.reader = s.reader ∧ s'.running = s.running ∧ s'.others = s.others ∧ s'.slots = s.slots ∧ s'.queries = s.queries ∧
      ((s'.made = s.made ∧ buf ::ₘ s'.pool = s.pool) ∨ (s'.made = s.made + 1 ∧ buf = s.made ∧ s'.pool = s.pool)) := by
  cases h with
  | free h => exact ⟨rfl, rfl, rfl, rfl, rfl, .inl ⟨rfl, Multiset.cons_erase h⟩⟩
  | new => exact ⟨rfl, rfl, rfl, rfl, rfl, .inr ⟨rfl, rfl, rfl⟩⟩

/-- A buffer is held by one party at a time. -/
theorem Step.held (h : Step cfg s s') :
    (s'.made = s.made ∧ s'.held = s.held) ∨ (s'.made = s.made + 1 ∧ s'.held = s.made ::ₘ s.held) := by
  cases h with
  | stop h | tooLong _ h | close h => exact .inl ⟨rfl, by simp only [held, Reader.held, h]⟩
  | lock | wroteHeader | failedHeader | wroteBody | failedBody => exact .inl ⟨rfl, rfl⟩
  | length _ h _ _ hget =>
    obtain ⟨-, hrunning, hothers, -, -, ⟨hmade, hpool⟩ | ⟨hmade, rfl, hpool⟩⟩ := hget.held
    · grind [held, Reader.held, Multiset.singleton_add]
    · simp [held, Reader.held, *]
  | truncated h | cancelled h | acquire h | unbounded h =>
    refine .inl ⟨rfl, ?_⟩
    simp only [held, Reader.held, h, ← Multiset.singleton_add]
    abel
  | message h => exact .inl ⟨rfl, by simp only [held, Reader.held, h]⟩
  | finish h =>
    refine .inl ⟨rfl, ?_⟩
    simp only [held]
    nth_rewrite 2 [← Multiset.cons_erase h]
    simp only [← Multiset.singleton_add]
    abel
  | othersGet hget =>
    obtain ⟨hreader, hrunning, hothers, -, -, ⟨hmade, hpool⟩ | ⟨hmade, rfl, hpool⟩⟩ := hget.held
    · refine .inl ⟨hmade, ?_⟩
      simp only [held, hreader, hrunning, hothers, ← hpool, ← Multiset.singleton_add]
      abel
    · refine .inr ⟨hmade, ?_⟩
      simp only [held, hreader, hrunning, hothers, hpool, ← Multiset.singleton_add]
      abel
  | othersPut h =>
    refine .inl ⟨rfl, ?_⟩
    simp only [held]
    nth_rewrite 2 [← Multiset.cons_erase h]
    simp only [← Multiset.singleton_add]
    abel

theorem Tidy.step (hs : s.Tidy cfg) (h : Step cfg s s') : s'.Tidy cfg := by
  refine ⟨?_, ?_, ?_⟩
  · obtain ⟨hmade, hheld⟩ | ⟨hmade, hheld⟩ := h.held
    · rw [hheld, hmade, hs.buffers]
    · rw [hheld, hmade, hs.buffers, Multiset.range_succ]
  · have hslots := hs.slots
    cases h with
    | acquire h hcap =>
      rw [if_pos hcap] at hslots ⊢
      rw [hslots, Multiset.card_cons]
    | unbounded h hcap =>
      rw [if_neg hcap] at hslots ⊢
      exact hslots
    | finish h => grind [Multiset.card_erase_of_mem, Nat.pred_eq_sub_one]
    | length _ _ _ _ hget | othersGet hget =>
      obtain ⟨-, hrunning, -, hsame, -⟩ := hget.held
      rw [hrunning, hsame]
      exact hslots
    | _ => exact hslots
  · intro hclosed
    have hrunning := hs.closed
    cases h with
    | close _ hrunning => exact hrunning
    | finish h =>
      rw [hrunning hclosed] at h
      exact absurd h (Multiset.notMem_zero _)
    | othersGet hget =>
      obtain ⟨hreader, hsame, -⟩ := hget.held
      rw [hsame, hrunning (hreader ▸ hclosed)]
    | length | stop | tooLong | truncated | message | acquire | cancelled | unbounded => cases hclosed
    | _ => exact hrunning hclosed

theorem Initial.tidy (h : s.Initial) : s.Tidy cfg :=
  ⟨by simp only [held, h.reader, h.running, Reader.held, zero_add, h.buffers],
    by rw [h.slots, h.running, Multiset.card_zero, ite_self],
    fun _ => h.running⟩

theorem Reaches.tidy (hinitial : s.Initial) (h : Reaches cfg s s') : s'.Tidy cfg := by
  induction h with
  | refl => exact hinitial.tidy
  | tail _ hstep ih => exact ih.step hstep

theorem Step.slots_le (hcap : 0 < cfg.maxInflightPerConn) (h : Step cfg s s') (hs : (s.slots : Int) ≤ cfg.maxInflightPerConn) :
    (s'.slots : Int) ≤ cfg.maxInflightPerConn := by
  cases h with
  | acquire _ _ hfree =>
    push_cast
    omega
  | finish =>
    simp only [if_pos hcap]
    omega
  | length _ _ _ _ hget | othersGet hget =>
    obtain ⟨-, -, -, hsame, -⟩ := hget.held
    rw [hsame]
    exact hs
  | _ => exact hs

theorem Step.loaded (h : Step cfg s s') (hs : s.running.card + s.reader.read ≤ s.queries) :
    s'.running.card + s'.reader.read ≤ s'.queries := by
  cases h with
  | finish h => exact (Nat.add_le_add_right (Multiset.card_le_card (Multiset.erase_le _ _)) _).trans hs
  | othersGet hget =>
    obtain ⟨hreader, hrunning, -, -, hqueries, -⟩ := hget.held
    rw [hreader, hrunning, hqueries]
    exact hs
  | length _ h _ _ hget =>
    obtain ⟨-, hrunning, -, -, hqueries, -⟩ := hget.held
    simp only [h, hrunning, hqueries, Reader.read] at hs ⊢
    exact hs
  | acquire h | unbounded h =>
    simp only [h, Reader.read, Multiset.card_cons] at hs ⊢
    exact hs
  | stop h | tooLong _ h | truncated h | message h | cancelled h | close h =>
    simp only [h, Reader.read] at hs ⊢
    omega
  | _ => exact hs

theorem Step.counted (hmax : 0 < cfg.maxQueriesPerConn) (h : Step cfg s s')
    (hs : (s.queries : Int) + s.reader.reading ≤ cfg.maxQueriesPerConn) :
    (s'.queries : Int) + s'.reader.reading ≤ cfg.maxQueriesPerConn := by
  cases h with
  | othersGet hget =>
    obtain ⟨hreader, -, -, -, hqueries, -⟩ := hget.held
    rw [hreader, hqueries]
    exact hs
  | length _ h hqueries _ hget =>
    obtain ⟨-, -, -, -, hsame, -⟩ := hget.held
    simp only [hsame, Reader.reading]
    omega
  | message h | stop h | tooLong _ h | truncated h | acquire h | unbounded h | cancelled h | close h =>
    simp only [h, Reader.reading] at hs ⊢
    omega
  | _ => exact hs

/-- As `MaxInflightPerConn` is documented: one dispatcher at a time if it is not positive. -/
def Bounded (cfg : LoopConfig) (s : Conn) : Prop :=
  (s.running.card : Int) ≤ if 0 < cfg.maxInflightPerConn then cfg.maxInflightPerConn else 1

theorem Reaches.bounded_of_cap (hcap : 0 < cfg.maxInflightPerConn) (hinitial : s.Initial) (h : Reaches cfg s s') :
    s'.Bounded cfg := by
  have hslots : (s'.slots : Int) ≤ cfg.maxInflightPerConn := by
    induction h with
    | refl =>
      rw [hinitial.slots]
      omega
    | tail _ hstep ih => exact hstep.slots_le hcap ih
  have htidy := (h.tidy hinitial).slots
  rw [if_pos hcap] at htidy
  rw [Bounded, if_pos hcap, ← htidy]
  exact hslots

theorem Reaches.bounded_of_single (hsingle : cfg.maxQueriesPerConn = 1) (hinitial : s.Initial) (h : Reaches cfg s s') :
    (s'.running.card : Int) ≤ 1 := by
  have hmax : 0 < cfg.maxQueriesPerConn := by omega
  have hload : s'.running.card + s'.reader.read ≤ s'.queries ∧
      (s'.queries : Int) + s'.reader.reading ≤ cfg.maxQueriesPerConn := by
    induction h with
    | refl => simp [hinitial.running, hinitial.reader, hinitial.queries, Reader.read, Reader.reading, hmax.le]
    | tail _ hstep ih => exact ⟨hstep.loaded ih.1, hstep.counted hmax ih.2⟩
  omega

def fresh : Conn := ⟨.waiting, 0, 0, 0, none, 0, 0, 0, [], [], []⟩

theorem initial_fresh : fresh.Initial := ⟨rfl, rfl, rfl, rfl, rfl, rfl, rfl, rfl, rfl⟩

def pipelined : Conn := { fresh with queries := 2, running := {1, 0}, made := 2 }

theorem reaches_pipelined (hcap : ¬0 < cfg.maxInflightPerConn) (hmany : cfg.maxQueriesPerConn ≠ 1) :
    Reaches cfg fresh pipelined := by
  have hsize : ¬(0 < cfg.maxMessageSize ∧ cfg.maxMessageSize < (0 : UInt16).toNat) := by
    rintro ⟨hpos, hlt⟩
    exact absurd (hpos.trans hlt) (lt_irrefl _)
  refine .head (.length 0 rfl ?_ hsize .new) (.head (.message rfl) (.head (.unbounded rfl hcap)
    (.head (.length 0 rfl ?_ hsize .new) (.head (.message rfl) (.head (.unbounded rfl hcap) ?_)))))
  · rintro ⟨hpos, hle⟩
    exact absurd (hpos.trans_le hle) (lt_irrefl _)
  · rintro ⟨hpos, hle⟩
    have : cfg.maxQueriesPerConn ≤ 1 := hle
    omega
  · exact .refl

end Invariant

end Conn

/-- Buffers and slots stay in order, and there are no more dispatchers than documented exactly if a positive bound is
configured, or a single query. -/
theorem serveConn_bounded_iff (cfg : LoopConfig) :
    (∀ s s', s.Initial → Conn.Reaches cfg s s' → s'.Bounded cfg ∧ s'.Tidy cfg) ↔
      0 < cfg.maxInflightPerConn ∨ cfg.maxQueriesPerConn = 1 := by
  constructor
  · intro h
    by_contra hno
    rw [not_or] at hno
    have hbound := (h _ _ Conn.initial_fresh (Conn.reaches_pipelined hno.1 hno.2)).1
    rw [Conn.Bounded, if_neg hno.1] at hbound
    exact absurd hbound (by decide)
  · rintro h s s' hinitial hreaches
    refine ⟨?_, hreaches.tidy hinitial⟩
    by_cases hcap : 0 < cfg.maxInflightPerConn
    · exact hreaches.bounded_of_cap hcap hinitial
    · rw [Conn.Bounded, if_neg hcap]
      exact hreaches.bounded_of_single (h.resolve_left hcap) hinitial

/-- With `MaxInflightPerConn` at zero two dispatchers run at a time. -/
theorem serveConn_not_serial : Conn.Reaches ⟨0, 0, 0⟩ Conn.fresh Conn.pipelined ∧ Conn.pipelined.running.card = 2 :=
  ⟨Conn.reaches_pipelined (by decide) (by decide), rfl⟩

end Acidns.Streamframe
