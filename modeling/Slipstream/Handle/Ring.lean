import Mathlib.Data.List.Basic

/-!
This module contains the bounded event ring of `ffi_handle.rs` and what of a history of pushes is
still in it: which events an overflow takes out, and in what order the others stand.
-/

namespace Slipstream
namespace Handle

structure FfiSlipstreamEvent where
  tag : UInt8
  value : UInt64
  deriving DecidableEq, Repr

def EVENT_RING_CAP : Nat := 64

def FfiSlipstreamEvent.droppable (e : FfiSlipstreamEvent) : Bool :=
  e.tag == 1 || e.tag == 2

def FfiSlipstreamEvent.critical (e : FfiSlipstreamEvent) : Bool :=
  e.tag == 3 || e.tag == 4 || e.tag == 5

def FfiSlipstreamEvent.lasting (e : FfiSlipstreamEvent) : Bool :=
  !e.droppable

theorem FfiSlipstreamEvent.lasting_of_critical {e : FfiSlipstreamEvent} (h : e.critical = true)
    : e.lasting = true := by
  have hcases : (e.tag = 3 ∨ e.tag = 4) ∨ e.tag = 5 := by simpa [critical] using h
  rcases hcases with (htag | htag) | htag <;> simp [lasting, droppable, htag]

def evict (ring : List FfiSlipstreamEvent) : List FfiSlipstreamEvent :=
  ring.eraseIdx ((ring.findIdx? FfiSlipstreamEvent.droppable).getD 0)

def pushEventBounded (ring : List FfiSlipstreamEvent) (e : FfiSlipstreamEvent)
    : List FfiSlipstreamEvent :=
  if ring.length ≥ EVENT_RING_CAP then evict ring ++ [e] else ring ++ [e]

inductive RingOp where
  | push (e : FfiSlipstreamEvent)
  | drain

def ringAfter (ops : List RingOp) : List FfiSlipstreamEvent :=
  ops.foldl apply []
where
  apply (ring : List FfiSlipstreamEvent) : RingOp → List FfiSlipstreamEvent
    | .push e => pushEventBounded ring e
    | .drain => []

def sinceDrain (ops : List RingOp) : List FfiSlipstreamEvent :=
  ops.foldl record []
where
  record (pushed : List FfiSlipstreamEvent) : RingOp → List FfiSlipstreamEvent
    | .push e => pushed ++ [e]
    | .drain => []

def lost (pushed : List FfiSlipstreamEvent) : Nat :=
  pushed.dropLast.countP FfiSlipstreamEvent.lasting - (EVENT_RING_CAP - 1)

theorem evict_sublist (ring : List FfiSlipstreamEvent) : (evict ring).Sublist ring :=
  List.eraseIdx_sublist ..

theorem evict_of_lasting {ring : List FfiSlipstreamEvent} (h : ∀ e ∈ ring, e.lasting = true)
    : evict ring = ring.tail := by
  have hnone : ring.findIdx? FfiSlipstreamEvent.droppable = none := by
    rw [List.findIdx?_eq_none_iff]
    intro e he
    simpa [FfiSlipstreamEvent.lasting] using h e he
  simp [evict, hnone]

theorem filter_evict {ring : List FfiSlipstreamEvent} (hd : d ∈ ring) (hdrop : d.droppable = true)
    : (evict ring).filter FfiSlipstreamEvent.lasting = ring.filter FfiSlipstreamEvent.lasting := by
  unfold evict
  induction ring with
  | nil => cases hd
  | cons e ring ih =>
    cases he : e.droppable with
    | true => simp [List.findIdx?_cons, he, FfiSlipstreamEvent.lasting]
    | false =>
      have hd : d ∈ ring := by
        rcases List.mem_cons.mp hd with rfl | hd
        . rw [he] at hdrop
          cases hdrop
        . exact hd
      obtain ⟨i, hi⟩ : ∃ i, ring.findIdx? FfiSlipstreamEvent.droppable = some i := by
        rw [← Option.isSome_iff_exists, List.findIdx?_isSome, List.any_eq_true]
        exact ⟨d, hd, hdrop⟩
      have ih := ih hd
      rw [hi, Option.getD_some] at ih
      simp [List.findIdx?_cons, he, hi, ih, List.filter_cons]

theorem length_evict {ring : List FfiSlipstreamEvent} (h : ring ≠ [])
    : (evict ring).length + 1 = ring.length := by
  have hpos := List.length_pos_of_ne_nil h
  have hindex : (ring.findIdx? FfiSlipstreamEvent.droppable).getD 0 < ring.length := by
    cases hi : ring.findIdx? FfiSlipstreamEvent.droppable with
    | none => exact hpos
    | some i => exact (List.findIdx?_eq_some_iff_getElem.mp hi).1
  rw [evict, List.length_eraseIdx_of_lt hindex]
  omega

structure RingInv (ring pushed : List FfiSlipstreamEvent) : Prop where
  bounded : ring.length ≤ EVENT_RING_CAP
  ordered : ring.Sublist pushed
  kept : ring.filter FfiSlipstreamEvent.lasting
    = (pushed.filter FfiSlipstreamEvent.lasting).drop (lost pushed)

namespace RingInv

theorem length_kept (h : RingInv ring pushed)
    : (ring.filter FfiSlipstreamEvent.lasting).length
      = pushed.countP FfiSlipstreamEvent.lasting - lost pushed := by
  rw [h.kept, List.length_drop, ← List.countP_eq_length_filter]

theorem countP_dropLast (pushed : List FfiSlipstreamEvent)
    : pushed.dropLast.countP FfiSlipstreamEvent.lasting ≤ pushed.countP FfiSlipstreamEvent.lasting
      ∧ pushed.countP FfiSlipstreamEvent.lasting
        ≤ pushed.dropLast.countP FfiSlipstreamEvent.lasting + 1 := by
  cases hlast : pushed.getLast? with
  | none =>
    rw [List.getLast?_eq_none_iff] at hlast
    simp [hlast]
  | some e =>
    obtain ⟨before, rfl⟩ := List.getLast?_eq_some_iff.mp hlast
    rw [List.dropLast_concat, List.countP_append]
    have : [e].countP FfiSlipstreamEvent.lasting ≤ 1 := List.countP_le_length
    omega

theorem lost_append (pushed : List FfiSlipstreamEvent) (e : FfiSlipstreamEvent)
    : lost (pushed ++ [e]) = pushed.countP FfiSlipstreamEvent.lasting - (EVENT_RING_CAP - 1) := by
  rw [lost, List.dropLast_concat]

theorem kept_push (before : List FfiSlipstreamEvent) (e : FfiSlipstreamEvent)
    (hlost : lost (pushed ++ [e]) ≤ pushed.countP FfiSlipstreamEvent.lasting)
    (hbefore : before.filter FfiSlipstreamEvent.lasting
      = (pushed.filter FfiSlipstreamEvent.lasting).drop (lost (pushed ++ [e])))
    : (before ++ [e]).filter FfiSlipstreamEvent.lasting
      = ((pushed ++ [e]).filter FfiSlipstreamEvent.lasting).drop (lost (pushed ++ [e])) := by
  rw [List.countP_eq_length_filter] at hlost
  rw [List.filter_append, List.filter_append, List.drop_append_of_le_length hlost, hbefore]

theorem push (h : RingInv ring pushed) (e : FfiSlipstreamEvent)
    : RingInv (pushEventBounded ring e) (pushed ++ [e]) := by
  have hkept := h.length_kept
  have hlost := lost_append pushed e
  have hcount := countP_dropLast pushed
  have hold : lost pushed
      = pushed.dropLast.countP FfiSlipstreamEvent.lasting - (EVENT_RING_CAP - 1) := rfl
  have hcap : EVENT_RING_CAP = 64 := rfl
  have hle := List.length_filter_le FfiSlipstreamEvent.lasting ring
  unfold pushEventBounded
  split
  . next hfull =>
    have hne : ring ≠ [] := by
      rintro rfl
      simp [hcap] at hfull
    have hlength := length_evict hne
    have hbounded := h.bounded
    refine ⟨?_, (evict_sublist ring).trans h.ordered |>.append_right [e], ?_⟩
    . rw [List.length_append, List.length_singleton]
      omega
    apply kept_push _ _ (by omega)
    by_cases hall : ∀ x ∈ ring, x.lasting = true
    . -- Nothing droppable is left: the oldest of the lasting events goes.
      have hself : ring.filter FfiSlipstreamEvent.lasting = ring :=
        List.filter_eq_self.mpr hall
      rw [hself] at hkept
      have hnext : lost (pushed ++ [e]) = lost pushed + 1 := by omega
      have htail : ring.tail.filter FfiSlipstreamEvent.lasting = ring.tail :=
        List.filter_eq_self.mpr fun x hx => hall x (List.mem_of_mem_tail hx)
      rw [evict_of_lasting hall, htail, hnext, ← List.drop_drop, ← h.kept, hself, List.drop_one]
    . -- The droppable event that goes leaves room for all the lasting ones.
      simp only [not_forall, Bool.not_eq_true] at hall
      obtain ⟨d, hd, hdrop⟩ := hall
      have hless : (ring.filter FfiSlipstreamEvent.lasting).length < ring.length := by
        rw [List.length_filter_lt_length_iff_exists]
        exact ⟨d, hd, by simp [hdrop]⟩
      have hsame : lost (pushed ++ [e]) = lost pushed := by omega
      rw [filter_evict hd (by simpa [FfiSlipstreamEvent.lasting] using hdrop), hsame, h.kept]
  . next hroom =>
    refine ⟨?_, h.ordered.append_right [e], ?_⟩
    . rw [List.length_append, List.length_singleton]
      omega
    have hsame : lost (pushed ++ [e]) = lost pushed := by omega
    apply kept_push _ _ (by omega)
    rw [hsame, h.kept]

end RingInv

theorem ring_inv (ops : List RingOp) : RingInv (ringAfter ops) (sinceDrain ops) := by
  suffices hall : ∀ ring pushed, RingInv ring pushed →
      RingInv (ops.foldl ringAfter.apply ring) (ops.foldl sinceDrain.record pushed) from
    hall [] [] ⟨Nat.zero_le _, .refl _, rfl⟩
  induction ops with
  | nil => exact fun _ _ h => h
  | cons op ops ih =>
    intro ring pushed h
    apply ih
    cases op with
    | push e => exact h.push e
    | drain => exact ⟨Nat.zero_le _, .refl _, rfl⟩

/--
The ring is bounded and keeps the order of the pushes, and what an overflow has cost is exact: of the
events it may not drop freely the oldest `lost` are gone. So every critical event is still there
unless 64 such events were pushed before the last push.
-/
theorem ring_contents (ops : List RingOp)
    : (ringAfter ops).length ≤ EVENT_RING_CAP
      ∧ (ringAfter ops).Sublist (sinceDrain ops)
      ∧ (ringAfter ops).filter FfiSlipstreamEvent.lasting
        = ((sinceDrain ops).filter FfiSlipstreamEvent.lasting).drop (lost (sinceDrain ops))
      ∧ ((sinceDrain ops).dropLast.countP FfiSlipstreamEvent.lasting < EVENT_RING_CAP →
          ∀ e ∈ sinceDrain ops, e.critical = true → e ∈ ringAfter ops) := by
  have hinv := ring_inv ops
  refine ⟨hinv.bounded, hinv.ordered, hinv.kept, ?_⟩
  intro hfew e he hcritical
  have hnone : lost (sinceDrain ops) = 0 := by
    unfold lost
    omega
  have hkept := hinv.kept
  rw [hnone, List.drop_zero] at hkept
  have hmem : e ∈ (sinceDrain ops).filter FfiSlipstreamEvent.lasting :=
    List.mem_filter.mpr ⟨he, FfiSlipstreamEvent.lasting_of_critical hcritical⟩
  rw [← hkept] at hmem
  exact (List.mem_filter.mp hmem).1

theorem ring_contents_done : (⟨3, 7⟩ : FfiSlipstreamEvent)
    ∈ ringAfter [.push ⟨1, 0⟩, .drain, .push ⟨3, 7⟩, .push ⟨2, 40⟩] :=
  (ring_contents _).2.2.2 (by decide) ⟨3, 7⟩ (by decide) (by decide)

def sixtyFourDone : List RingOp :=
  (List.range 64).map (fun i => .push ⟨3, i.toUInt64⟩) ++ [.push ⟨1, 0⟩]

/--
A SyncStarted that finds 64 critical events in the ring takes the place of the oldest one, although
no more than 64 critical events were pushed.
-/
theorem critical_displaced
    : (sinceDrain sixtyFourDone).countP FfiSlipstreamEvent.critical = 64
      ∧ (⟨3, 0⟩ : FfiSlipstreamEvent) ∈ sinceDrain sixtyFourDone
      ∧ (⟨3, 0⟩ : FfiSlipstreamEvent) ∉ ringAfter sixtyFourDone := by
  decide +kernel

end Handle
end Slipstream
