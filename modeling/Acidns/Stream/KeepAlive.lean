import Mathlib.Logic.Relation

/-!
# Deadlines on a connection that is used again

`TCPKeepAliveClient.Exchange` of `exchanger_tcp_keepalive.go` with `ExchangeOnConn` of
`internal/streamframe/streamframe.go`: the calls run one after another on one connection. Each starts a watcher that
sets a deadline when the context of the call ends. The call closes the watcher's channel before it returns, but
does not wait for the watcher, which may still find the context ended.
-/

namespace Acidns.Streamframe

/-- The call that has `exchangeMu`, with its connection once `ExchangeOnConn` is entered. -/
structure Call where
  id : Nat
  ctx : Nat
  conn : Option Nat
  deriving DecidableEq

/-- A goroutine that sets a deadline when its context ends. -/
structure Watcher where
  call : Nat
  ctx : Nat
  conn : Nat
  /-- Its `stop` channel is closed: the call has returned. -/
  stopped : Bool
  deriving DecidableEq

structure Deadline where
  call : Nat
  ctx : Nat
  conn : Nat
  deriving DecidableEq

/-- The client with the connection it keeps. -/
structure KeepAlive where
  cached : Option Nat
  dialed : Nat
  calls : Nat
  current : Option Call
  watchers : List Watcher
  ended : List Nat
  deriving DecidableEq

namespace KeepAlive

def newClient : KeepAlive := ⟨none, 0, 0, none, [], []⟩

def Watcher.stop (id : Nat) (w : Watcher) : Watcher := if w.call = id then { w with stopped := true } else w

def enter (s : KeepAlive) (c : Call) (k : Nat) : KeepAlive :=
  { s with current := some { c with conn := some k }, watchers := ⟨c.id, c.ctx, k, false⟩ :: s.watchers }

def firstDeadline (timed : Bool) (c : Call) (k : Nat) : Option Deadline :=
  if timed then some ⟨c.id, c.ctx, k⟩ else none

/-- What a caller, a watcher or a context does next, and the deadline it sets. -/
inductive Step (s : KeepAlive) : Option Deadline → KeepAlive → Prop
  | lock (ctx : Nat) (h : s.current = none) :
      Step s none { s with current := some ⟨s.calls, ctx, none⟩, calls := s.calls + 1 }
  | reuse {c : Call} {k : Nat} (timed : Bool) (h : s.current = some c) (hconn : c.conn = none) (hcached : s.cached = some k) :
      Step s (firstDeadline timed c k) (s.enter c k)
  | dial {c : Call} (timed : Bool) (h : s.current = some c) (hconn : c.conn = none) :
      Step s (firstDeadline timed c s.dialed)
        ({ s with cached := some s.dialed, dialed := s.dialed + 1 }.enter c s.dialed)
  | dialFails {c : Call} (h : s.current = some c) (hconn : c.conn = none) : Step s none { s with cached := none, current := none }
  | leave {c : Call} {k : Nat} (keep : Bool) (h : s.current = some c) (hconn : c.conn = some k) :
      Step s none { s with current := none, watchers := s.watchers.map (Watcher.stop c.id),
                           cached := if keep ∨ s.cached ≠ some k then s.cached else none }
  | close : Step s none { s with cached := none }
  | ends (ctx : Nat) : Step s none { s with ended := ctx :: s.ended }
  /-- Of two channels that are ready `select` takes either. -/
  | fires {w : Watcher} (h : w ∈ s.watchers) (hended : w.ctx ∈ s.ended) :
      Step s (some ⟨w.call, w.ctx, w.conn⟩) { s with watchers := s.watchers.erase w }
  | stops {w : Watcher} (h : w ∈ s.watchers) (hstopped : w.stopped = true) :
      Step s none { s with watchers := s.watchers.erase w }

def Reaches : KeepAlive → KeepAlive → Prop := Relation.ReflTransGen fun s s' => ∃ d, Step s d s'

/-- The deadline hits only the exchange it was set for. -/
def Isolated (s : KeepAlive) (d : Deadline) : Prop := s.current = some ⟨d.call, d.ctx, some d.conn⟩

structure Inv (s : KeepAlive) : Prop where
  own : ∀ w ∈ s.watchers, w.stopped = false → s.current = some ⟨w.call, w.ctx, some w.conn⟩
  left : ∀ w ∈ s.watchers, w.stopped = true → ∀ c, s.current = some c → c.id ≠ w.call
  watcher_lt : ∀ w ∈ s.watchers, w.call < s.calls
  current_lt : ∀ c, s.current = some c → c.id < s.calls

variable {s s' : KeepAlive} {d : Option Deadline}

theorem Inv.stopped (hs : s.Inv) (hcurrent : ∀ c, s.current = some c → c.conn = none) {w : Watcher} (hw : w ∈ s.watchers) :
    w.stopped = true := by
  cases hstopped : w.stopped with
  | true => rfl
  | false => cases hcurrent _ (hs.own w hw hstopped)

theorem Inv.enter (hs : s.Inv) {c : Call} (h : s.current = some c) (hconn : c.conn = none) (k : Nat) : (s.enter c k).Inv := by
  have hstopped : ∀ w ∈ s.watchers, w.stopped = true := by
    intro w hw
    refine hs.stopped (fun c' hc' => ?_) hw
    cases h.symm.trans hc'
    exact hconn
  refine ⟨fun w hw hrunning => ?_, fun w hw hstop c' hc' => ?_, fun w hw => ?_, fun c' hc' => ?_⟩
  · obtain rfl | hw := List.mem_cons.mp hw
    · rfl
    · rw [hstopped w hw] at hrunning
      cases hrunning
  · cases hc'
    obtain rfl | hw := List.mem_cons.mp hw
    · cases hstop
    · exact hs.left w hw hstop c h
  · obtain rfl | hw := List.mem_cons.mp hw
    · exact hs.current_lt c h
    · exact hs.watcher_lt w hw
  · cases hc'
    exact hs.current_lt c h

theorem isolated_enter {timed : Bool} {c : Call} {k : Nat} {d : Deadline} (h : some d = firstDeadline timed c k) :
    (s.enter c k).Isolated d := by
  rw [firstDeadline] at h
  split at h
  · cases h
    rfl
  · cases h

theorem Inv.of_sublist (hs : s.Inv) (hcurrent : s'.current = s.current) (hcalls : s'.calls = s.calls)
    (hw : ∀ w ∈ s'.watchers, w ∈ s.watchers) : s'.Inv := by
  refine ⟨?_, ?_, ?_, ?_⟩
  · rw [hcurrent]
    exact fun w h => hs.own w (hw w h)
  · rw [hcurrent]
    exact fun w h => hs.left w (hw w h)
  · rw [hcalls]
    exact fun w h => hs.watcher_lt w (hw w h)
  · rw [hcurrent, hcalls]
    exact hs.current_lt

theorem Inv.of_idle (hcurrent : s'.current = none) (hstopped : ∀ w ∈ s'.watchers, w.stopped = true ∧ w.call < s'.calls) :
    s'.Inv := by
  refine ⟨fun w hw h => ?_, fun _ _ _ c hc => ?_, fun w hw => (hstopped w hw).2, fun c hc => ?_⟩
  · rw [(hstopped w hw).1] at h
    cases h
  · rw [hcurrent] at hc
    cases hc
  · rw [hcurrent] at hc
    cases hc

theorem Inv.step (hs : s.Inv) (h : Step s d s') : s'.Inv := by
  cases h with
  | lock ctx h =>
    have hstopped : ∀ w ∈ s.watchers, w.stopped = true := fun w hw =>
      hs.stopped (fun c hc => by rw [h] at hc; cases hc) hw
    refine ⟨fun w hw hrunning => ?_, fun w hw _ c hc => ?_, fun w hw => ?_, fun c hc => ?_⟩
    · rw [hstopped w hw] at hrunning
      cases hrunning
    · cases hc
      exact Nat.ne_of_gt (hs.watcher_lt w hw)
    · exact Nat.lt_succ_of_lt (hs.watcher_lt w hw)
    · cases hc
      exact Nat.lt_succ_self _
  | reuse _ h hconn => exact hs.enter h hconn _
  | dial _ h hconn =>
    have hdialed : Inv { s with cached := some s.dialed, dialed := s.dialed + 1 } := hs.of_sublist rfl rfl fun _ hw => hw
    exact hdialed.enter h hconn _
  | dialFails h hconn =>
    refine .of_idle rfl fun w hw => ⟨hs.stopped (fun c hc => ?_) hw, hs.watcher_lt w hw⟩
    cases h.symm.trans hc
    exact hconn
  | leave _ h =>
    refine .of_idle rfl fun w hw => ?_
    obtain ⟨v, hv, rfl⟩ := List.mem_map.mp hw
    rw [Watcher.stop]
    split
    · exact ⟨rfl, hs.watcher_lt v hv⟩
    · next hother =>
      cases hstopped : v.stopped with
      | true => exact ⟨rfl, hs.watcher_lt v hv⟩
      | false =>
        cases h.symm.trans (hs.own v hv hstopped)
        exact absurd rfl hother
  | fires | stops => exact hs.of_sublist rfl rfl fun _ hw => List.mem_of_mem_erase hw
  | close | ends => exact hs.of_sublist rfl rfl fun _ hw => hw

theorem inv_newClient : newClient.Inv := .of_idle rfl (List.forall_mem_nil _)

theorem Reaches.inv (h : Reaches newClient s) : s.Inv := by
  induction h with
  | refl => exact inv_newClient
  | tail _ hstep ih =>
    obtain ⟨d, hstep⟩ := hstep
    exact ih.step hstep

end KeepAlive

/-- The next deadline stems from the exchange in progress exactly if no watcher left behind finds its context ended. -/
theorem keepAlive_isolated_iff {s : KeepAlive} (h : KeepAlive.Reaches .newClient s) :
    (∀ d s', KeepAlive.Step s (some d) s' → s'.Isolated d) ↔ ∀ w ∈ s.watchers, w.stopped = true → w.ctx ∉ s.ended := by
  have hs := h.inv
  constructor
  · intro hisolated w hw hstopped hended
    have hcurrent : s.current = some ⟨w.call, w.ctx, some w.conn⟩ := hisolated _ _ (.fires hw hended)
    exact hs.left w hw hstopped _ hcurrent rfl
  · intro hleft d s' hstep
    generalize hd : some d = event at hstep
    cases hstep with
    | reuse => exact KeepAlive.isolated_enter hd
    | dial => exact KeepAlive.isolated_enter hd
    | fires hw hended =>
      cases hd
      exact hs.own _ hw (Bool.eq_false_iff.mpr fun hstopped => hleft _ hw hstopped hended)
    | _ => cases hd

namespace KeepAlive

def leftBehind : KeepAlive :=
  ⟨some 0, 1, 2, some ⟨1, 1, some 0⟩, [⟨1, 1, 0, false⟩, ⟨0, 0, 0, true⟩], []⟩

theorem reaches_leftBehind : Reaches newClient leftBehind :=
  .head ⟨_, .lock 0 rfl⟩ (.head ⟨_, .dial true rfl rfl⟩ (.head ⟨_, .leave true rfl rfl⟩ (.head ⟨_, .lock 1 rfl⟩
    (.head ⟨_, .reuse true rfl rfl rfl⟩ .refl))))

end KeepAlive

theorem keepAlive_isolated_leftBehind :
    KeepAlive.Reaches .newClient .leftBehind ∧ ∀ d s', KeepAlive.Step .leftBehind (some d) s' → s'.Isolated d :=
  ⟨KeepAlive.reaches_leftBehind, (keepAlive_isolated_iff KeepAlive.reaches_leftBehind).mpr (by decide)⟩

/-- The context of the first call ends after its return, and the deadline is set during the second. -/
theorem keepAlive_late_deadline :
    KeepAlive.Reaches .newClient { KeepAlive.leftBehind with ended := [0] } ∧
      KeepAlive.Step { KeepAlive.leftBehind with ended := [0] } (some ⟨0, 0, 0⟩)
        { KeepAlive.leftBehind with ended := [0], watchers := [⟨1, 1, 0, false⟩] } ∧
      ¬({ KeepAlive.leftBehind with ended := [0], watchers := [⟨1, 1, 0, false⟩] } : KeepAlive).Isolated ⟨0, 0, 0⟩ := by
  refine ⟨KeepAlive.reaches_leftBehind.tail ⟨none, .ends 0⟩, ?_, by unfold KeepAlive.Isolated; decide⟩
  have hw : (⟨0, 0, 0, true⟩ : Watcher) ∈ ({ KeepAlive.leftBehind with ended := [0] } : KeepAlive).watchers := by decide
  exact .fires hw (.head _)

end Acidns.Streamframe
