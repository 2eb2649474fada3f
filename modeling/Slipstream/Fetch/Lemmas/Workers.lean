import Slipstream.Fetch.Lemmas.Log
import Slipstream.Fetch.Lemmas.Steps

/-!
This module contains the workers' side of the fetch's invariant: every worker is at the place of its
own plan chunk that the log says, and the blocks it holds continue what it has handed over.
-/

namespace Slipstream
namespace Fetch

structure WorkersInv (plan : FetchPlan) (spec : StreamSpec) (log : Log) (s : FetchState) : Prop where
  unclaimed : ∀ i, s.next ≤ i → log i = []
  wellFormed : ∀ w ∈ s.workers, w.WellFormed
  owns : ∀ w ∈ s.workers, ∀ c, w.cursor? = some c → OwnsChunk plan log s.next c
  distinct : ∀ (k k' : Nat) (w w' : Worker) (c c' : PlanChunkCursor), s.workers[k]? = some w →
    s.workers[k']? = some w' → w.cursor? = some c → w'.cursor? = some c' →
    c.planIndex = c'.planIndex → k = k'
  streams : ∀ i, spec.good i (blocksOf (log i))
  holds : ∀ w ∈ s.workers, ∀ c, w.cursor? = some c →
    spec.good c.planIndex (blocksOf (log c.planIndex) ++ w.held)

def handedOver (s : FetchState) : FetchEvent → Option SubChunk
  | .send k =>
    match s.workers[k]?, s.result with
    | some (.sending _ sub _), none => some sub
    | _, _ => none
  | _ => none

def grow (log : Log) (s : FetchState) (e : FetchEvent) : Log :=
  match handedOver s e with
  | some sub => extend log sub
  | none => log

def Delivers (spec : StreamSpec) (log : Log) (s : FetchState) (e : FetchEvent) : Prop :=
  ∀ k b deadline a sp, e = .input k (.block b deadline) → s.workers[k]? = some (.streaming a sp) →
    spec.good a.cursor.planIndex (blocksOf (log a.cursor.planIndex) ++ (sp.acc ++ [b]))

variable {plan : FetchPlan} {spec : StreamSpec} {log : Log} {s s' : FetchState} {k : Nat}
  {w w' : Worker}

theorem grow_of_none (h : handedOver s e = none) (log : Log) : grow log s e = log := by
  rw [grow, h]

theorem handedOver_sent (hk : s.workers[k]? = some (.sending a sub after))
    (hrunning : s.result = none) : handedOver s (.send k) = some sub := by
  simp [handedOver, hk, hrunning]

theorem grow_sent (hk : s.workers[k]? = some (.sending a sub after)) (hrunning : s.result = none)
    (log : Log) : grow log s (.send k) = extend log sub := by
  rw [grow, handedOver_sent hk hrunning]

theorem handedOver_quits (hover : s.result ≠ none) (e : FetchEvent) : handedOver s e = none := by
  unfold handedOver
  repeat' split
  . next hrunning => exact absurd hrunning hover
  all_goals rfl

theorem grow_quits (hover : s.result ≠ none) (log : Log) : grow log s e = log :=
  grow_of_none (handedOver_quits hover e) log

theorem grow_stage (h : StageTrans plan s e s') (log : Log) : grow log s e = log := by
  apply grow_of_none
  cases h <;> rfl

theorem WorkersInv.frame (h : WorkersInv plan spec log s) (hnext : s'.next = s.next)
    (hworkers : s'.workers = s.workers) : WorkersInv plan spec log s' := by
  constructor
  case unclaimed => rw [hnext]; exact h.unclaimed
  case wellFormed => rw [hworkers]; exact h.wellFormed
  case owns => rw [hworkers, hnext]; exact h.owns
  case distinct => rw [hworkers]; exact h.distinct
  case streams => exact h.streams
  case holds => rw [hworkers]; exact h.holds

theorem mem_set_cases {ws : List Worker} (hx : x ∈ ws.set k w') : x = w' ∨ x ∈ ws := by
  rcases List.mem_or_eq_of_mem_set hx with hx | hx
  . exact Or.inr hx
  . exact Or.inl hx

theorem WorkersInv.setWorker (h : WorkersInv plan spec log s) (hwf : w'.WellFormed)
    (howns : ∀ c, w'.cursor? = some c → OwnsChunk plan log s.next c)
    (halone : ∀ c, w'.cursor? = some c → ∀ k' x c', k' ≠ k → s.workers[k']? = some x →
      x.cursor? = some c' → c.planIndex ≠ c'.planIndex)
    (hholds : ∀ c, w'.cursor? = some c →
      spec.good c.planIndex (blocksOf (log c.planIndex) ++ w'.held))
    : WorkersInv plan spec log (Fetch.setWorker s k w') := by
  constructor
  case unclaimed => exact h.unclaimed
  case wellFormed =>
    intro x hx
    rcases mem_set_cases hx with rfl | hx
    . exact hwf
    . exact h.wellFormed x hx
  case owns =>
    intro x hx c hc
    rcases mem_set_cases hx with rfl | hx
    . exact howns c hc
    . exact h.owns x hx c hc
  case distinct =>
    intro k₁ k₂ w₁ w₂ c₁ c₂ h₁ h₂ hc₁ hc₂ heq
    simp only [Fetch.setWorker, List.getElem?_set] at h₁ h₂
    by_contra hne
    by_cases hk₁ : k = k₁
    . have hk₂ : k ≠ k₂ := fun hk₂ => hne (hk₁.symm.trans hk₂)
      rw [if_neg hk₂] at h₂
      rw [if_pos hk₁] at h₁
      split at h₁
      . cases h₁
        exact halone c₁ hc₁ k₂ w₂ c₂ (Ne.symm hk₂) h₂ hc₂ heq
      . cases h₁
    . rw [if_neg hk₁] at h₁
      by_cases hk₂ : k = k₂
      . rw [if_pos hk₂] at h₂
        split at h₂
        . cases h₂
          exact halone c₂ hc₂ k₁ w₁ c₁ (Ne.symm hk₁) h₁ hc₁ heq.symm
        . cases h₂
      . rw [if_neg hk₂] at h₂
        exact hne (h.distinct k₁ k₂ w₁ w₂ c₁ c₂ h₁ h₂ hc₁ hc₂ heq)
  case streams => exact h.streams
  case holds =>
    intro x hx c hc
    rcases mem_set_cases hx with rfl | hx
    . exact hholds c hc
    . exact h.holds x hx c hc

theorem WorkersInv.setFree (h : WorkersInv plan spec log s) (hwf : w'.WellFormed)
    (hfree : w'.cursor? = none) : WorkersInv plan spec log (Fetch.setWorker s k w') := by
  apply h.setWorker hwf
  all_goals simp [hfree]

theorem WorkersInv.stay (h : WorkersInv plan spec log s) (hk : s.workers[k]? = some w)
    (hc : w.cursor? = some c) (hkeeps : Worker.Keeps c bs w')
    (hgood : spec.good c.planIndex (blocksOf (log c.planIndex) ++ bs))
    : WorkersInv plan spec log (Fetch.setWorker s k w') := by
  have hmem := List.mem_of_getElem? hk
  obtain ⟨hwf, hkeeps⟩ := hkeeps
  rcases hkeeps with ⟨hnone, -⟩ | ⟨c', hc', hsame, hstarts⟩
  . apply h.setWorker hwf
    all_goals simp [hnone]
  . apply h.setWorker hwf
    case howns =>
      intro x hx
      obtain rfl : c' = x := Option.some.inj (hc'.symm.trans hx)
      exact (h.owns w hmem c hc).samePlace hsame
    case halone =>
      intro x hx k' y cy hne hy hcy heq
      obtain rfl : c' = x := Option.some.inj (hc'.symm.trans hx)
      rw [hsame.planIndex] at heq
      exact hne (h.distinct k k' w y c cy hk hy hc hcy heq).symm
    case hholds =>
      intro x hx
      obtain rfl : c' = x := Option.some.inj (hc'.symm.trans hx)
      rw [hsame.planIndex]
      exact spec.shorten hgood (List.prefix_append_right_inj _ |>.mpr hstarts)

theorem WorkersInv.input (h : WorkersInv plan spec log s) (hk : s.workers[k]? = some w)
    (hin : w.input plan i = some w') (hdelivers : Delivers spec log s (.input k i))
    : WorkersInv plan spec log (Fetch.setWorker s k w') := by
  obtain ⟨hwf, hcases⟩ := Worker.input_cases hin
  rcases hcases with ⟨hnone, -⟩ | ⟨c, hc, hkeeps⟩
  . exact h.setFree hwf hnone
  . apply h.stay hk hc hkeeps
    have hheld := h.holds w (List.mem_of_getElem? hk) c hc
    cases i with
    | block b deadline =>
      obtain ⟨a, sp, rfl⟩ := Worker.input_block hin
      cases hc
      exact hdelivers k b deadline a sp rfl hk
    | _ => exact hheld

theorem WorkersInv.bump (h : WorkersInv plan spec log s)
    : WorkersInv plan spec log { s with next := s.next + 1 } := by
  constructor
  case unclaimed => exact fun i hi => h.unclaimed i (Nat.le_of_succ_le hi)
  case wellFormed => exact h.wellFormed
  case owns =>
    intro x hx c hc
    have := h.owns x hx c hc
    exact { this with claimed := Nat.lt_succ_of_lt this.claimed }
  case distinct => exact h.distinct
  case streams => exact h.streams
  case holds => exact h.holds

theorem WorkersInv.claimed (h : WorkersInv plan spec log s) (hlt : s.next < plan.chunkCount)
    : WorkersInv plan spec log (Fetch.setWorker { s with next := s.next + 1 } k
        (.beginAttempt (plan.freshCursor s.next) 0)) := by
  have hempty := h.unclaimed s.next (Nat.le_refl _)
  have hcursor : ∀ c, (Worker.beginAttempt (plan.freshCursor s.next) 0).cursor? = some c →
      Worker.SamePlace (plan.freshCursor s.next) c := by
    rintro c ⟨rfl⟩
    exact ⟨rfl, rfl, rfl, rfl⟩
  have hfresh : OwnsChunk plan log (s.next + 1) (plan.freshCursor s.next) := by
    constructor
    case claimed => exact Nat.lt_succ_self _
    case inPlan => exact hlt
    case stop => rfl
    case nextSubIndex => simp [FetchPlan.freshCursor, hempty]
    case unfinished => simp [FetchPlan.freshCursor, hempty]
    case resumeFrom => simp [FetchPlan.freshCursor, hempty, resumePoint, blocksOf]
  apply h.bump.setWorker
  case hwf => trivial
  case howns => exact fun c hc => hfresh.samePlace (hcursor c hc)
  case halone =>
    intro c hc k' x c' _ hx hc' heq
    have := (h.owns x (List.mem_of_getElem? hx) c' hc').claimed
    have : c.planIndex = s.next := (hcursor c hc).planIndex
    omega
  case hholds =>
    intro c hc
    have hindex : c.planIndex = s.next := (hcursor c hc).planIndex
    rw [hindex]
    simpa [Worker.held, Worker.beginAttempt] using h.streams s.next

theorem WorkersInv.gate (h : WorkersInv plan spec log s) (hk : s.workers[k]? = some w) (w' : Worker)
    (hc : w.cursor? = some c) (hc' : w'.cursor? = some c) (hheld : w'.held = w.held)
    (hwf : w'.WellFormed) : WorkersInv plan spec log (Fetch.setWorker s k w') := by
  apply h.stay hk hc ⟨hwf, Or.inr ⟨c, hc', Worker.SamePlace.refl _, List.prefix_refl _⟩⟩
  rw [hheld]
  exact h.holds w (List.mem_of_getElem? hk) c hc

theorem WorkersInv.extend (h : WorkersInv plan spec log s) (hk : s.workers[k]? = some w)
    (hc : w.cursor? = some c) (hplan : sub.planIndex = c.planIndex)
    (hgood : spec.good c.planIndex (blocksOf (log c.planIndex) ++ sub.blocks))
    : WorkersInv plan spec (Fetch.extend log sub) (Fetch.setWorker s k .claiming) := by
  have howns := h.owns w (List.mem_of_getElem? hk) c hc
  have hother : ∀ x ∈ (Fetch.setWorker s k .claiming).workers, ∀ c', x.cursor? = some c' →
      x ∈ s.workers ∧ c'.planIndex ≠ sub.planIndex := by
    intro x hx c' hc'
    obtain ⟨k', hk'⟩ := List.mem_iff_getElem?.mp hx
    simp only [Fetch.setWorker, List.getElem?_set] at hk'
    split at hk'
    . split at hk'
      . cases hk'
        cases hc'
      . cases hk'
    . next hne =>
      refine ⟨List.mem_of_getElem? hk', fun heq => hne ?_⟩
      exact h.distinct k k' w x c c' hk hk' hc hc' (hplan.symm.trans heq.symm)
  constructor
  case unclaimed =>
    intro i hi
    have hne : i ≠ sub.planIndex := by
      have := howns.claimed
      rw [hplan]
      dsimp only [Fetch.setWorker] at hi
      omega
    rw [Fetch.extend_other log hne]
    exact h.unclaimed i hi
  case wellFormed =>
    intro x hx
    rcases mem_set_cases hx with rfl | hx
    . trivial
    . exact h.wellFormed x hx
  case owns =>
    intro x hx c' hc'
    obtain ⟨hmem, hne⟩ := hother x hx c' hc'
    exact (h.owns x hmem c' hc').extend_other hne
  case distinct =>
    have hset : WorkersInv plan spec log (Fetch.setWorker s k .claiming) := by
      apply h.setWorker
      all_goals simp [Worker.WellFormed, Worker.cursor?]
    exact hset.distinct
  case streams =>
    intro i
    by_cases hi : i = sub.planIndex
    . subst hi
      rw [extend_same, blocksOf_append]
      simpa [blocksOf, hplan] using hgood
    . rw [Fetch.extend_other log hi]
      exact h.streams i
  case holds =>
    intro x hx c' hc'
    obtain ⟨hmem, hne⟩ := hother x hx c' hc'
    rw [Fetch.extend_other log hne]
    exact h.holds x hmem c' hc'

theorem setWorker_setWorker (s : FetchState) (k : Nat) (w w' : Worker)
    : Fetch.setWorker (Fetch.setWorker s k w) k w' = Fetch.setWorker s k w' := by
  simp [Fetch.setWorker]

theorem resume_keeps (plan : FetchPlan) (a : Attempt) (after : AfterEmit)
    (hafter : after ≠ .complete) : Worker.Keeps a.cursor after.held (Worker.resume plan a after) := by
  cases after with
  | stream sp =>
    exact ⟨trivial, Or.inr ⟨a.cursor, rfl, Worker.SamePlace.refl _, List.prefix_refl _⟩⟩
  | complete => exact absurd rfl hafter
  | fail detail => exact Worker.retry_keeps plan a.cursor a.attempt detail []

theorem WorkersInv.send (h : WorkersInv plan spec log s)
    (hk : s.workers[k]? = some (.sending a sub after))
    : WorkersInv plan spec (Fetch.extend log sub) (Fetch.setWorker s k
        (Worker.resume plan { a with cursor := Worker.advance a.cursor sub } after)) := by
  have hmem := List.mem_of_getElem? hk
  obtain ⟨hand, hplan, -⟩ := h.wellFormed _ hmem
  have howns := h.owns _ hmem a.cursor rfl
  have hheld := h.holds _ hmem a.cursor rfl
  simp only [Worker.held, ← List.append_assoc] at hheld
  have hgrown := h.extend hk rfl hplan (spec.shorten hheld (List.prefix_append _ _))
  rw [← setWorker_setWorker s k .claiming]
  by_cases hafter : after = .complete
  . subst hafter
    apply hgrown.setWorker
    all_goals simp [Worker.resume, Worker.WellFormed, Worker.cursor?]
  . have hlast : sub.isLast = false := by
      rw [← Bool.not_eq_true, hand.complete]
      exact hafter
    have hadvance := howns.advance hplan hand.nonempty hlast
    obtain ⟨hwf, hkeeps⟩ :=
      resume_keeps plan { a with cursor := Worker.advance a.cursor sub } after hafter
    rcases hkeeps with ⟨hnone, -⟩ | ⟨c', hc', hsame, hstarts⟩
    . apply hgrown.setWorker hwf
      all_goals simp [hnone]
    . have hindex : c'.planIndex = a.cursor.planIndex := hsame.planIndex
      apply hgrown.setWorker hwf
      case howns =>
        intro x hx
        obtain rfl : c' = x := Option.some.inj (hc'.symm.trans hx)
        exact hadvance.samePlace hsame
      case halone =>
        intro x hx k' y cy hne hy hcy heq
        obtain rfl : c' = x := Option.some.inj (hc'.symm.trans hx)
        simp only [Fetch.setWorker, List.getElem?_set, if_neg (Ne.symm hne)] at hy
        rw [hindex] at heq
        exact hne (h.distinct k k' _ y a.cursor cy hk hy rfl hcy heq).symm
      case hholds =>
        intro x hx
        obtain rfl : c' = x := Option.some.inj (hc'.symm.trans hx)
        have hlog : blocksOf (Fetch.extend log sub a.cursor.planIndex)
            = blocksOf (log a.cursor.planIndex) ++ sub.blocks := by
          rw [← hplan, extend_same, blocksOf_append]
          simp [blocksOf]
        rw [hindex, hlog]
        exact spec.shorten hheld (List.prefix_append_right_inj _ |>.mpr hstarts)

theorem WorkersInv.trans (h : WorkersInv plan spec log s) (hdelivers : Delivers spec log s e)
    (ht : WorkerTrans plan s k e s') : WorkersInv plan spec (grow log s e) s' := by
  cases ht with
  | input hk hin => exact h.input hk hin hdelivers
  | claimed hk hlt => exact h.claimed hlt
  | exhausted hk hge => exact h.bump.setFree trivial rfl
  | passes hk hfloor =>
    exact h.gate hk _ rfl rfl rfl ⟨h.wellFormed _ (List.mem_of_getElem? hk), rfl, rfl⟩
  | waits hk hfloor =>
    have hwf := h.wellFormed _ (List.mem_of_getElem? hk)
    exact h.gate hk _ rfl rfl rfl hwf
  | acquired hk hfree =>
    have hwf := h.wellFormed _ (List.mem_of_getElem? hk)
    exact (h.gate hk (.sending _ (Attempt.subChunk _ _ _ _ _) _) rfl rfl rfl
      ⟨hwf, rfl, rfl⟩).frame rfl rfl
  | repolled hk hfloor =>
    exact h.gate hk _ rfl rfl rfl ⟨h.wellFormed _ (List.mem_of_getElem? hk), rfl, rfl⟩
  | waitsOn hk hfloor => exact h
  | sent hk hrunning hroom =>
    rw [grow_sent hk hrunning]
    exact (h.send hk).frame rfl rfl
  | quits hk hover =>
    rw [grow_quits hover]
    exact h.setFree trivial rfl

end Fetch
end Slipstream
