import Acidns.Stream.ServeConn
import Mathlib.Data.List.Sublists

/-!
# The frames on the wire

A `WriteMsg` call writes the length of a message and then the message, with the mutex held. A write that fails behind
the first byte of a frame leaves a torn frame, and `WriteMsg` lets the other dispatchers write behind it. Whether they
do is up to the underlying connection: one whose write errors are permanent takes no more bytes.
-/

namespace Acidns.Streamframe

open List

open Octets (bigEndian length_bigEndian)

namespace Conn

variable {cfg : LoopConfig} {s s' : Conn}

/-- The bytes on the wire begin a sequence of frames, of messages that were written in this order. -/
def Framed (s : Conn) : Prop :=
  ∃ bodies : List Bytes, bodies.Sublist s.begun ∧ s.wire <+: bodies.flatMap frame

/-- Once a `Write` has failed with part of a frame out, the underlying connection takes no more bytes. -/
def Permanent (s : Conn) : Prop :=
  s.writes.Pairwise fun w w' => w.failed = true → w.out = 0 ∨ w'.taken = 0

/-- A write has failed with part of a frame out. -/
def Torn (s : Conn) : Prop := ∃ w ∈ s.writes, w.failed = true ∧ 0 < w.out

theorem taken_of_torn {w : Write} {s' : Conn} (h : s'.Permanent) (hwrites : s'.writes = s.writes ++ [w]) (htorn : s.Torn) :
    w.taken = 0 := by
  obtain ⟨w', hw', hfailed, hout⟩ := htorn
  rw [Permanent, hwrites, pairwise_append] at h
  exact (h.2.2 w' hw' w (mem_singleton_self w) hfailed).resolve_left hout.ne'

theorem torn_append {w : Write} (hwrites : s'.writes = s.writes ++ [w]) :
    s'.Torn ↔ s.Torn ∨ w.failed = true ∧ 0 < w.out := by
  simp [Torn, hwrites, or_and_right, exists_or]

/-- What a step can do to the wire. -/
theorem Step.quiet_or (h : Step cfg s s') :
    (s'.writer = s.writer ∧ s'.wire = s.wire ∧ s'.begun = s.begun ∧ s'.writes = s.writes) ∨
    (s.writer = none ∧ ∃ w, w.headed = false ∧ s'.writer = some w ∧ s'.wire = s.wire ∧ s'.begun = s.begun ∧
      s'.writes = s.writes) ∨
    (∃ w, s.writer = some w ∧ w.headed = false ∧ s'.begun = s.begun ++ [w.body] ∧
      ((s'.writer = some { w with headed := true } ∧ s'.wire = s.wire ++ bigEndian 2 w.body.length ∧
          s'.writes = s.writes ++ [⟨2, 2, false⟩]) ∨
        ∃ k, s'.writer = none ∧ s'.wire = s.wire ++ (bigEndian 2 w.body.length).take k ∧
          s'.writes = s.writes ++ [⟨k, k, true⟩])) ∨
    (∃ w, s.writer = some w ∧ w.headed = true ∧ s'.begun = s.begun ∧ s'.writer = none ∧
      ∃ k failed, s'.wire = s.wire ++ w.body.take k ∧ s'.writes = s.writes ++ [⟨k, 2 + k, failed⟩] ∧
        (failed = false → k = w.body.length)) := by
  cases h with
  | lock _ _ hfree => exact .inr (.inl ⟨hfree, _, rfl, rfl, rfl, rfl, rfl⟩)
  | wroteHeader h hheaded => exact .inr (.inr (.inl ⟨_, h, hheaded, rfl, .inl ⟨rfl, rfl, rfl⟩⟩))
  | failedHeader k h hheaded => exact .inr (.inr (.inl ⟨_, h, hheaded, rfl, .inr ⟨k, rfl, rfl, rfl⟩⟩))
  | wroteBody h hheaded =>
    exact .inr (.inr (.inr ⟨_, h, hheaded, rfl, rfl, _, false, by rw [take_length], rfl, fun _ => rfl⟩))
  | failedBody k h hheaded => exact .inr (.inr (.inr ⟨_, h, hheaded, rfl, rfl, k, true, rfl, rfl, nofun⟩))
  | length _ _ _ _ hget | othersGet hget => cases hget <;> exact .inl ⟨rfl, rfl, rfl, rfl⟩
  | _ => exact .inl ⟨rfl, rfl, rfl, rfl⟩

structure Intact (s : Conn) : Prop where
  headed : ∀ w, s.writer = some w → w.headed = true → ¬s.Torn ∧
    ∃ before bodies : List Bytes, s.begun = before ++ [w.body] ∧ bodies.Sublist before ∧
      s.wire = bodies.flatMap frame ++ bigEndian 2 w.body.length
  whole : (∀ w, s.writer = some w → w.headed = false) → ¬s.Torn →
    ∃ bodies : List Bytes, bodies.Sublist s.begun ∧ s.wire = bodies.flatMap frame
  torn : s.Torn → s.Framed

theorem flatMap_frame_append (bodies : List Bytes) (b : Bytes) :
    (bodies ++ [b]).flatMap frame = bodies.flatMap frame ++ (bigEndian 2 b.length ++ b) := by
  rw [flatMap_append, flatMap_singleton, frame]

theorem Intact.of_writer (hs : s.Intact) (hw : ∀ w, s.writer = some w → w.headed = false)
    (hw' : ∀ w, s'.writer = some w → w.headed = false) (hwire : s'.wire = s.wire) (htorn : s'.Torn ↔ s.Torn)
    (hbegun : s.begun.Sublist s'.begun) : s'.Intact where
  headed := by
    intro w h hheaded
    rw [hw' w h] at hheaded
    cases hheaded
  whole := by
    intro _ h
    obtain ⟨bodies, hsub, heq⟩ := hs.whole hw (mt htorn.mpr h)
    exact ⟨bodies, hsub.trans hbegun, hwire.trans heq⟩
  torn := by
    intro h
    obtain ⟨bodies, hsub, hpre⟩ := hs.torn (htorn.mp h)
    exact ⟨bodies, hsub.trans hbegun, hwire ▸ hpre⟩

theorem headed_eq_false {w : Writer} (hw : s.writer = some w) (hheaded : w.headed = false) :
    ∀ w, s.writer = some w → w.headed = false := by
  intro w' hw'
  cases hw.symm.trans hw'
  exact hheaded

theorem of_torn (hwriter : s.writer = none) (htorn : s.Torn) (h : s.Framed) : s.Intact where
  headed := by
    intro w hw
    rw [hwriter] at hw
    cases hw
  whole := fun _ hclean => absurd htorn hclean
  torn := fun _ => h

/-- A step keeps the frames in order, if nothing follows a torn one. -/
theorem Intact.step (hs : s.Intact) (h : Step cfg s s') (hs' : s'.Permanent) : s'.Intact := by
  obtain ⟨hwriter, hwire, hbegun, hwrites⟩ | ⟨hfree, w, hheaded, hwriter, hwire, hbegun, hwrites⟩ |
    ⟨w, hw, hheaded, hbegun, ⟨hwriter, hwire, hwrites⟩ | ⟨k, hwriter, hwire, hwrites⟩⟩ |
    ⟨w, hw, hheaded, hbegun, hwriter, k, failed, hwire, hwrites, hall⟩ := h.quiet_or
  · constructor
    · rw [hwriter, Torn, hwrites, hbegun, hwire]
      exact hs.headed
    · rw [hwriter, Torn, hwrites, hbegun, hwire]
      exact hs.whole
    · rw [Torn, hwrites, Framed, hbegun, hwire]
      exact hs.torn
  · refine hs.of_writer (fun w hw => ?_) (fun w' hw' => ?_) hwire (by rw [Torn, Torn, hwrites])
      (hbegun ▸ List.Sublist.refl _)
    · rw [hfree] at hw
      cases hw
    · rw [hwriter] at hw'
      cases hw'
      exact hheaded
  · have hclean : ¬s.Torn := fun htorn => nomatch taken_of_torn hs' hwrites htorn
    have hclean' : ¬s'.Torn := by simp [torn_append hwrites, hclean]
    obtain ⟨bodies, hsub, hwhole⟩ := hs.whole (headed_eq_false hw hheaded) hclean
    refine ⟨fun w' h _ => ?_, fun h => ?_, fun h => absurd h hclean'⟩
    · rw [hwriter] at h
      cases h
      exact ⟨hclean', s.begun, bodies, hbegun, hsub, by rw [hwire, hwhole]⟩
    · cases h _ hwriter
  · obtain rfl | hpos := k.eq_zero_or_pos
    · refine hs.of_writer (headed_eq_false hw hheaded) (fun w' hw' => ?_) ?_ ?_ (hbegun ▸ sublist_append_left _ _)
      · rw [hwriter] at hw'
        cases hw'
      · rw [hwire, take_zero, append_nil]
      · simp [torn_append hwrites]
    · have hclean : ¬s.Torn := fun htorn => hpos.ne' (taken_of_torn hs' hwrites htorn)
      obtain ⟨bodies, hsub, hwhole⟩ := hs.whole (headed_eq_false hw hheaded) hclean
      refine of_torn hwriter ((torn_append hwrites).mpr (.inr ⟨rfl, hpos⟩))
        ⟨bodies ++ [w.body], hbegun ▸ hsub.append_right _, ?_⟩
      rw [hwire, hwhole, flatMap_frame_append, prefix_append_right_inj]
      exact prefix_append_of_prefix <| take_prefix _ _
  · obtain ⟨hclean, before, bodies, hbefore, hsub, hopen⟩ := hs.headed w hw hheaded
    have hbodies : (bodies ++ [w.body]).Sublist s'.begun := by
      rw [hbegun, hbefore]
      exact hsub.append_right _
    cases failed with
    | true =>
      refine of_torn hwriter ((torn_append hwrites).mpr (.inr ⟨rfl, Nat.lt_add_right k Nat.two_pos⟩))
        ⟨bodies ++ [w.body], hbodies, ?_⟩
      rw [hwire, hopen, flatMap_frame_append, append_assoc, prefix_append_right_inj, prefix_append_right_inj]
      exact take_prefix _ _
    | false =>
      refine ⟨fun w' h => ?_, fun _ _ => ⟨bodies ++ [w.body], hbodies, ?_⟩, fun h => ?_⟩
      · rw [hwriter] at h
        cases h
      · rw [hwire, hopen, hall rfl, take_length, flatMap_frame_append, append_assoc]
      · simp [torn_append hwrites, hclean] at h

end Conn

def emptyResponse (id : UInt16) : Message := ⟨id, 0x8000, [], [], [], [], none⟩

namespace Conn

end Conn

namespace Conn

end Conn

end Acidns.Streamframe
