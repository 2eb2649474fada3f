import Slipstream.Fetch.Lemmas.Workers

/-!
This module contains the release side of the fetch's invariant: the channel, the reorder buffer and
the released blocks are all pieces of the log, whatever the interleaving.
-/

namespace Slipstream
namespace Fetch

def inHand (s : FetchState) : List CompactBlock :=
  match s.reorder.phase with
  | .sending sub => sub.blocks
  | _ => []

structure ReleaseInv (plan : FetchPlan) (log : Log) (s : FetchState) : Prop where
  channel : ∀ sub ∈ s.channel, (log sub.planIndex)[sub.subIndex]? = some sub
  pending : ∀ sub ∈ s.reorder.pending, (log sub.planIndex)[sub.subIndex]? = some sub
  sending : ∀ sub, s.reorder.phase = .sending sub →
    (log s.reorder.next.1)[s.reorder.next.2]? = some sub
  within : s.reorder.next.2 ≤ (log s.reorder.next.1).length
  released : released s = releasedOf log s.reorder.next
  done : ∀ i < s.reorder.next.1, ∃ sub, (log i).getLast? = some sub ∧ sub.isLast = true
  plans : s.reorder.plansReleased = s.reorder.next.1
  linked : Linked (Fetch.released s ++ inHand s)
  frontier : s.reorder.continuity.IsFrontier (Fetch.released s ++ inHand s)
  complete : ∀ stats, s.result = some (.ok stats) → s.reorder.plansReleased = plan.chunkCount
  chunks : ∀ c ∈ s.queue.sent, c.blocks ≠ []

variable {plan : FetchPlan} {log : Log} {s s' : FetchState} {next : Nat × Nat} {sub : SubChunk}

theorem ReleaseInv.frame (h : ReleaseInv plan log s) (hchannel : s'.channel = s.channel)
    (hreorder : s'.reorder = s.reorder) (hsent : s'.queue.sent = s.queue.sent)
    (hresult : ∀ stats, s'.result = some (.ok stats) → s.result = some (.ok stats))
    : ReleaseInv plan log s' := by
  have hreleased : Fetch.released s' = Fetch.released s := by rw [Fetch.released, hsent]; rfl
  have hhand : inHand s' = inHand s := by rw [inHand, hreorder]; rfl
  constructor
  case channel => rw [hchannel]; exact h.channel
  case pending => rw [hreorder]; exact h.pending
  case sending => rw [hreorder]; exact h.sending
  case within => rw [hreorder]; exact h.within
  case released => rw [hreorder, hreleased]; exact h.released
  case done => rw [hreorder]; exact h.done
  case plans => rw [hreorder]; exact h.plans
  case linked => rw [hreleased, hhand]; exact h.linked
  case frontier => rw [hreleased, hhand, hreorder]; exact h.frontier
  case complete =>
    rw [hreorder]
    exact fun stats hok => h.complete stats (hresult stats hok)
  case chunks => rw [hsent]; exact h.chunks

theorem ReleaseInv.fail (h : ReleaseInv plan log s) (e : SlipstreamError)
    : ReleaseInv plan log (Fetch.fail s e) := by
  apply h.frame
  case hresult =>
    intro stats hok
    cases hok
  all_goals rfl

theorem releasedOf_extend (hopen : ∀ x ∈ log sub.planIndex, x.isLast = false)
    (hdone : ∀ i < next.1, ∃ x, (log i).getLast? = some x ∧ x.isLast = true)
    (hwithin : next.2 ≤ (log next.1).length)
    : releasedOf (extend log sub) next = releasedOf log next := by
  have hbefore : ∀ i < next.1, i ≠ sub.planIndex := by
    rintro i hi rfl
    obtain ⟨x, hx, hlast⟩ := hdone _ hi
    have := hopen x (List.mem_of_getLast? hx)
    rw [hlast] at this
    cases this
  have htake : (extend log sub next.1).take next.2 = (log next.1).take next.2 := by
    by_cases hi : next.1 = sub.planIndex
    . rw [hi, extend_same, ← hi, List.take_append_of_le_length hwithin]
    . rw [extend_other log hi]
  unfold releasedOf
  rw [htake]
  congr 1
  apply List.flatMap_congr
  intro i hi
  rw [extend_other log (hbefore i (List.mem_range.mp hi))]

theorem ReleaseInv.extend (h : ReleaseInv plan log s)
    (hopen : ∀ x ∈ log sub.planIndex, x.isLast = false)
    (hindex : sub.subIndex = (log sub.planIndex).length)
    : ReleaseInv plan (Fetch.extend log sub) { s with channel := s.channel ++ [sub] } := by
  constructor
  case channel =>
    intro x hx
    rw [List.mem_append, List.mem_singleton] at hx
    rcases hx with hx | rfl
    . exact extend_getElem? (h.channel x hx)
    . rw [extend_same, hindex]
      simp
  case pending => exact fun x hx => extend_getElem? (h.pending x hx)
  case sending => exact fun x hx => extend_getElem? (h.sending x hx)
  case within =>
    have := h.within
    dsimp
    by_cases hi : s.reorder.next.1 = sub.planIndex
    . rw [hi, extend_same, List.length_append]
      rw [hi] at this
      omega
    . rwa [extend_other log hi]
  case released => exact h.released.trans (releasedOf_extend hopen h.done h.within).symm
  case done =>
    intro i hi
    obtain ⟨x, hx, hlast⟩ := h.done i hi
    have hne : i ≠ sub.planIndex := by
      rintro rfl
      have := hopen x (List.mem_of_getLast? hx)
      rw [hlast] at this
      cases this
    rw [extend_other log hne]
    exact ⟨x, hx, hlast⟩
  case plans => exact h.plans
  case linked => exact h.linked
  case frontier => exact h.frontier
  case complete => exact h.complete
  case chunks => exact h.chunks

theorem ReleaseInv.phase {subs waiting : List SubChunk} {p : ReleasePhase}
    {d : Option WireDetector} (h : ReleaseInv plan log s) (hidle : inHand s = [])
    (hphase : ∀ sub, p ≠ .sending sub)
    (hwaiting : ∀ sub ∈ waiting, (log sub.planIndex)[sub.subIndex]? = some sub)
    (hsubs : ∀ sub ∈ subs, (log sub.planIndex)[sub.subIndex]? = some sub)
    : ReleaseInv plan log {
        s with
        channel := subs
        reorder := { s.reorder with phase := p, pending := waiting, detector := d }
      } := by
  generalize hs' : FetchState.mk .. = s'
  have hhand : inHand s' = [] := by
    subst hs'
    cases p with
    | sending sub => exact absurd rfl (hphase sub)
    | _ => rfl
  have hlinked := h.linked
  have hfrontier := h.frontier
  rw [hidle] at hlinked hfrontier
  rw [← hhand] at hlinked hfrontier
  subst hs'
  constructor
  case channel => exact hsubs
  case pending => exact hwaiting
  case sending => exact fun sub hsub => absurd hsub (hphase sub)
  case within => exact h.within
  case released => exact h.released
  case done => exact h.done
  case plans => exact h.plans
  case linked => exact hlinked
  case frontier => exact hfrontier
  case complete => exact h.complete
  case chunks => exact h.chunks

theorem mem_insertPending (h : x ∈ insertPending pending sub) : x ∈ pending ∨ x = sub := by
  simp only [insertPending, List.mem_append, List.mem_filter, List.mem_singleton] at h
  exact h.imp And.left id

theorem ReleaseInv.received (h : ReleaseInv plan log s) (hphase : s.reorder.phase = .receiving)
    (hchannel : s.channel = sub :: subs) (d : Option WireDetector)
    : ReleaseInv plan log {
        s with
        channel := subs
        reorder := {
          s.reorder with
          phase := .draining
          pending := insertPending s.reorder.pending sub
          detector := d
        }
      } := by
  have hidle : inHand s = [] := by simp [inHand, hphase]
  apply h.phase hidle (by simp)
  . intro x hx
    rcases mem_insertPending hx with hx | rfl
    . exact h.pending x hx
    . exact h.channel x (by simp [hchannel])
  . exact fun x hx => h.channel x (by simp [hchannel, hx])

theorem mem_rest (hx : x ∈ rest s) : x ∈ s.reorder.pending := List.mem_of_mem_filter hx

theorem ReleaseInv.verified (h : ReleaseInv plan log s) (hphase : s.reorder.phase = .draining)
    (hsub : sub ∈ s.reorder.pending) (hkey : (sub.planIndex, sub.subIndex) = s.reorder.next)
    (hverify : s.reorder.continuity.verifyBlocks sub.blocks = .ok c)
    : ReleaseInv plan log {
        s with
        reorder := { s.reorder with pending := rest s, continuity := c, phase := .sending sub }
      } := by
  have hidle : inHand s = [] := by simp [inHand, hphase]
  have hlinked := h.linked
  have hfrontier := h.frontier
  rw [hidle, List.append_nil] at hlinked hfrontier
  obtain ⟨hfront, hlink, -⟩ := Continuity.verifyBlocks_ok hfrontier hlinked hverify
  constructor
  case channel => exact h.channel
  case pending => exact fun x hx => h.pending x (mem_rest hx)
  case sending =>
    rintro x ⟨rfl⟩
    dsimp
    rw [← hkey]
    exact h.pending _ hsub
  case within => exact h.within
  case released => exact h.released
  case done => exact h.done
  case plans => exact h.plans
  case linked => exact hlink
  case frontier => exact hfront
  case complete => exact h.complete
  case chunks => exact h.chunks

theorem releasedOf_succ (h : (log next.1)[next.2]? = some sub)
    : releasedOf log (next.1, next.2 + 1) = releasedOf log next ++ sub.blocks := by
  simp [releasedOf, List.take_add_one, h, blocksOf]

theorem releasedOf_next (h : next.2 + 1 = (log next.1).length)
    : releasedOf log (next.1 + 1, 0) = releasedOf log (next.1, next.2 + 1) := by
  simp [releasedOf, List.range_succ, h, blocksOf]

theorem ReleaseInv.release (hlog : LogInv plan log) (h : ReleaseInv plan log s)
    (hrunning : s.result = none) (hphase : s.reorder.phase = .sending sub)
    : ReleaseInv plan log (afterRelease s sub) := by
  have hsub := h.sending sub hphase
  have hlinked := h.linked
  have hfrontier := h.frontier
  simp only [inHand, hphase] at hlinked hfrontier
  have hindex := (hlog.key hsub).1
  unfold afterRelease
  have hsent : Fetch.released s ++ sub.blocks = releasedOf log
      (if sub.isLast = true then (sub.planIndex + 1, 0)
        else (s.reorder.next.1, s.reorder.next.2 + 1)) := by
    rw [h.released, ← releasedOf_succ hsub]
    split
    . next hlast =>
      rw [hindex, releasedOf_next (hlog.last hsub hlast).1]
    . rfl
  constructor
  case channel => exact h.channel
  case pending => exact h.pending
  case sending =>
    intro x hx
    cases hx
  case within =>
    dsimp
    split
    . exact Nat.zero_le _
    . exact LogInv.lt_length hsub
  case released =>
    dsimp
    rw [← hsent]
    simp [Fetch.released, Chunk.fromBlocks]
  case done =>
    intro i hi
    dsimp at hi
    split at hi
    . next hlast =>
      rw [hindex] at hi
      rcases Nat.lt_succ_iff_lt_or_eq.mp hi with hi | rfl
      . exact h.done i hi
      . refine ⟨sub, ?_, hlast⟩
        rw [List.getLast?_eq_getElem?, ← (hlog.last hsub hlast).1, Nat.add_sub_cancel]
        exact hsub
    . exact h.done i hi
  case plans =>
    dsimp
    split
    . rw [h.plans, hindex]
    . exact h.plans
  case linked => simpa [Fetch.released, inHand, Chunk.fromBlocks] using hlinked
  case frontier => simpa [Fetch.released, inHand, Chunk.fromBlocks] using hfrontier
  case complete =>
    intro stats hok
    dsimp at hok
    rw [hrunning] at hok
    cases hok
  case chunks =>
    intro c hc
    rw [List.mem_append, List.mem_singleton] at hc
    rcases hc with hc | rfl
    . exact h.chunks c hc
    . exact hlog.nonempty hsub

theorem ReleaseInv.trans (hlog : LogInv plan log) (h : ReleaseInv plan log s)
    (hrunning : s.result = none) (ht : StageTrans plan s e s') : ReleaseInv plan log s' := by
  cases ht with
  | ticks hphase hchannel hd =>
    have hidle : inHand s = [] := by simp [inHand, hphase]
    exact h.phase hidle (by simp [hphase]) h.pending h.channel
  | stalls hd => exact h.fail _
  | received hphase hchannel hd => exact h.received hphase hchannel _
  | collapses hphase hchannel hd =>
    have hidle : inHand s = [] := by simp [inHand, hphase]
    have hsubs := fun x hx => h.channel x (hchannel ▸ List.mem_cons_of_mem _ hx)
    exact (h.phase hidle (by simp [hphase]) h.pending hsubs).fail _
  | drained hphase hnone =>
    have hidle : inHand s = [] := by simp [inHand, hphase]
    exact h.phase hidle (by simp) h.pending h.channel
  | rejected hphase hsub hkey hverify =>
    have hidle : inHand s = [] := by simp [inHand, hphase]
    exact (h.phase hidle (by simp [hphase]) (fun x hx => h.pending x (mem_rest hx))
      h.channel).fail _
  | verified hphase hsub hkey hverify => exact h.verified hphase hsub hkey hverify
  | released hphase hreceiver hfree => exact h.release hlog hrunning hphase
  | refused hreceiver => exact h.fail _
  | ends hphase hchannel hall =>
    have hidle : inHand s = [] := by simp [inHand, hphase]
    exact h.phase hidle (by simp) h.pending h.channel
  | joined hk => exact h.frame rfl rfl rfl fun _ hok => hok
  | givenUp hk hfailed => exact h.fail _
  | panicked => exact h.fail _
  | incomplete hphase hplans => exact h.fail _
  | completed hphase hplans => exact { h with complete := fun _ _ => hplans }

end Fetch
end Slipstream
